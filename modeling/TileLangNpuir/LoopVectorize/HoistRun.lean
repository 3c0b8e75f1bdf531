import TileLangNpuir.LoopVectorize.Hoist

/-!
# Running hoisted statements

A parallel nest may hold further parallel and serial loops, sequences, branches and
lets. `visitStmt_hoist_sound` says when hoisting out of it is right: nothing hoisted
mentions a variable bound inside the nest, and, along every run, wherever a hoisted
temporary is read the expression it stands for still has the value it had before the
nest.
-/

namespace TileLangNpuir.LoopVectorize

variable {V : Type}

/-! ## What statements write and bind -/

namespace Stmt

/-- The buffers a statement writes. -/
def dests : Stmt V → List ℕ
  | seq s t => s.dests ++ t.dests
  | forLoop _ _ _ _ body => body.dests
  | ifThenElse _ s t => s.dests ++ t.dests
  | letStmt _ _ body => body.dests
  | store buf _ _ => [buf.id]
  | eval call => [call.dst.buf.id]
  | nop => []

/-- The variables a statement binds. -/
def binds : Stmt V → List Var
  | seq s t => s.binds ++ t.binds
  | forLoop _ x _ _ body => x :: body.binds
  | ifThenElse _ s t => s.binds ++ t.binds
  | letStmt x _ body => x :: body.binds
  | store _ _ _ => []
  | eval _ => []
  | nop => []

/-- The buffers a statement stores to, and those its stored values load, existed
before. -/
def Below (base : ℕ) : Stmt V → Prop
  | seq s t => s.Below base ∧ t.Below base
  | forLoop _ _ _ _ body => body.Below base
  | ifThenElse _ s t => s.Below base ∧ t.Below base
  | letStmt _ _ body => body.Below base
  | store buf _ value => buf.id < base ∧ ∀ l ∈ value.loads, l.1.id < base
  | eval call => call.dst.buf.id < base
  | nop => True

/-- No variable is bound again inside its scope, and a loop's first value does not
mention what the loop binds. -/
def WellScoped : Stmt V → Prop
  | seq s t => s.WellScoped ∧ t.WellScoped
  | forLoop _ x min _ body =>
    x ∉ body.binds ∧ (∀ y ∈ min.vars, y ∉ x :: body.binds) ∧ body.WellScoped
  | ifThenElse _ s t => s.WellScoped ∧ t.WellScoped
  | letStmt x _ body => x ∉ body.binds ∧ body.WellScoped
  | store _ _ _ => True
  | eval _ => True
  | nop => True

/-- The stores the pass tries to decompose, with the parallel loops around them. -/
def sites : List Loop → Stmt V → List (List Loop × Access × Expr V)
  | loops, seq s t => s.sites loops ++ t.sites loops
  | loops, forLoop kind x min extent body =>
    match parallelExtent kind extent with
    | some n =>
      match body.asStore with
      | some (buf, indices, value) => [(loops ++ [⟨x, min, n⟩], ⟨buf, indices⟩, value)]
      | none => body.sites (loops ++ [⟨x, min, n⟩])
    | none => body.sites loops
  | loops, ifThenElse _ s t => s.sites loops ++ t.sites loops
  | loops, letStmt _ _ body => body.sites loops
  | _, store _ _ _ => []
  | _, eval _ => []
  | _, nop => []

/-- Running a statement changes only the buffers it writes. -/
theorem run_of_not_mem_dests {A : Alg V} {isTrue : V → Bool} {s : Stmt V} {env : Env V} {m : Mem V}
    {b : ℕ} (h : b ∉ s.dests) : s.run A isTrue env m b = m b := by
  induction s generalizing env m with
  | seq s t ihs iht =>
    simp only [dests, List.mem_append, not_or] at h
    rw [run, iht h.2, ihs h.1]
  | forLoop kind x min extent body ih =>
    exact countLoop_inv (P := fun m' : Mem V => m' b = m b) (fun i m' hm => (ih h).trans hm) _ _ m rfl
  | ifThenElse cond s t ihs iht =>
    simp only [dests, List.mem_append, not_or] at h
    rw [run]
    split
    · exact ihs h.1
    · exact iht h.2
  | letStmt x value body ih => exact ih h
  | store buf indices value =>
    funext q
    exact if_neg fun hq => h (List.mem_singleton.mpr hq.1)
  | eval call => exact TileCall.exec_of_ne fun hb => h (List.mem_singleton.mpr hb)
  | nop => rfl

theorem Below.dests_lt {base : ℕ} {s : Stmt V} (h : s.Below base) : ∀ d ∈ s.dests, d < base := by
  induction s with
  | seq s t ihs iht =>
    intro d hd
    rcases List.mem_append.mp hd with hd | hd
    · exact ihs h.1 d hd
    · exact iht h.2 d hd
  | forLoop kind x min extent body ih => exact ih h
  | ifThenElse cond s t ihs iht =>
    intro d hd
    rcases List.mem_append.mp hd with hd | hd
    · exact ihs h.1 d hd
    · exact iht h.2 d hd
  | letStmt x value body ih => exact ih h
  | store buf indices value =>
    intro d hd
    obtain rfl := List.mem_singleton.mp hd
    exact h.1
  | eval call =>
    intro d hd
    obtain rfl := List.mem_singleton.mp hd
    exact h
  | nop => exact fun d hd => nomatch hd

theorem dests_prepend (cs : List (TileCall V)) (s : Stmt V) :
    (prepend cs s).dests = LoopVectorize.dests cs ++ s.dests := by
  induction cs with
  | nil => rfl
  | cons c cs ih => exact congrArg (c.dst.buf.id :: ·) ih

end Stmt

/-! ## What visiting a statement emits -/

section Visit

variable {S : Simplifier} {loops : List Loop} {base : ℕ} {st st' : Emitter V}

/-- The parts of a store that are materialized before the nest, when the pass tries
to decompose it. -/
def storeHoists (loops : List Loop) (S : Simplifier) (out : Access) (value : Expr V) :
    List (Expr V) :=
  if (out.indices.all fun e => e.isVar || e.isConst) && canDecomposeBufferAccess loops value then
    value.hoistsRoot loops S out
  else []

theorem mem_selectHoists {e p : Expr V} {parts : List (Expr V)}
    (hp : p ∈ selectHoists loops e parts) : p ∈ parts ∨ p = e := by
  rw [selectHoists] at hp
  split at hp
  · cases hp
  · rcases List.mem_append.mp hp with hp | hp
    · exact .inl hp
    · split at hp
      · cases hp
      · exact .inr (List.mem_singleton.mp hp)

/-- A hoisted part loads what the expression loads. -/
theorem mem_loads_of_mem_hoists {out : Access} {e p : Expr V} (hp : p ∈ e.hoists loops S out)
    {l : Buffer × List Index} (hl : l ∈ p.loads) : l ∈ e.loads := by
  induction e with
  | imm x t => cases hp
  | var x =>
    rw [Expr.hoists] at hp
    split at hp
    · obtain rfl := List.mem_singleton.mp hp
      exact hl
    · cases hp
  | load buf indices =>
    have hpart : p = .load buf indices := by
      rw [Expr.hoists] at hp
      split at hp
      · split at hp
        · split at hp
          · exact List.mem_singleton.mp hp
          · cases hp
        · cases hp
      · cases hp
    exact hpart ▸ hl
  | unary op a ih =>
    rw [Expr.hoists] at hp
    split at hp
    · cases hp
    · exact ih hp
  | binary op a b iha ihb =>
    rw [Expr.hoists] at hp
    split at hp
    · rcases List.mem_append.mp hp with hp | hp
      · exact List.mem_append_left _ (iha hp)
      · exact List.mem_append_right _ (ihb hp)
    · cases hp
  | ifThenElse c t f ihc iht ihf =>
    simp only [Expr.hoists, List.mem_append] at hp
    simp only [Expr.loads, List.mem_append]
    rcases hp with (hp | hp) | hp
    · rcases mem_selectHoists hp with hp | rfl
      · exact .inl (.inl (ihc hp))
      · exact .inl (.inl hl)
    · rcases mem_selectHoists hp with hp | rfl
      · exact .inl (.inr (iht hp))
      · exact .inl (.inr hl)
    · rcases mem_selectHoists hp with hp | rfl
      · exact .inr (ihf hp)
      · exact .inr hl
  | other t xs ls g => cases hp

theorem mem_loads_of_mem_storeHoists {out : Access} {e p : Expr V}
    (hp : p ∈ storeHoists loops S out e) {l : Buffer × List Index} (hl : l ∈ p.loads) :
    l ∈ e.loads := by
  rw [storeHoists] at hp
  split at hp
  · cases e with
    | load buf indices => cases hp
    | _ => exact mem_loads_of_mem_hoists hp hl
  · cases hp

theorem decompose_emitsRoot {out : Access} (e : Expr V) (st : Emitter V) :
    Emits loops S out (e.hoistsRoot loops S out) st (decompose loops S out 0 e st).2 := by
  cases e with
  | load buf indices => exact .put st _ rfl
  | _ => exact decompose_emits _ 0 st

/-- What trying to decompose a store emits, whether or not it falls back. -/
theorem vectorizeSingleStatement_effects {buf : Buffer} {indices : List Index} {value : Expr V}
    (hloads : ∀ l ∈ value.loads, l.1.id < base) (hbase : base ≤ st.next)
    {r : Option (List (TileCall V))}
    (hv : vectorizeSingleStatement S loops buf indices value st = (r, st')) :
    st.next ≤ st'.next ∧ ∃ ss hs us, (∀ calls, r = some calls → calls = ss) ∧
      st'.hoisted = st.hoisted ++ hs ∧ st'.uses = st.uses ++ us ∧
      Effects loops S ⟨buf, indices⟩ base (storeHoists loops S ⟨buf, indices⟩ value) st.next st'.next
        ss hs us := by
  have hnothing : st.next ≤ st.next ∧ ∃ ss hs us,
      (∀ calls : List (TileCall V), none = some calls → calls = ss) ∧
      st.hoisted = st.hoisted ++ hs ∧ st.uses = st.uses ++ us ∧
      Effects loops S ⟨buf, indices⟩ base (storeHoists loops S ⟨buf, indices⟩ value) st.next st.next
        ss hs us :=
    ⟨le_rfl, [], [], [], by simp, by simp, by simp, effects_stmts .nil (by simp)⟩
  rw [vectorizeSingleStatement] at hv
  split at hv
  case isFalse =>
    obtain ⟨rfl, rfl⟩ := Prod.mk.inj hv
    exact hnothing
  case isTrue hindices =>
    split at hv
    case isFalse =>
      obtain ⟨rfl, rfl⟩ := Prod.mk.inj hv
      exact hnothing
    case isTrue hcan =>
      have hparts : storeHoists loops S ⟨buf, indices⟩ value =
          value.hoistsRoot loops S ⟨buf, indices⟩ := by
        rw [storeHoists, hindices, hcan]
        rfl
      have hbelow : ∀ p ∈ value.hoistsRoot loops S ⟨buf, indices⟩, ∀ l ∈ p.loads,
          l.1.id < base :=
        fun p hp l hl => hloads l (mem_loads_of_mem_storeHoists (hparts ▸ hp) hl)
      rw [hparts]
      have hemits : Emits loops S ⟨buf, indices⟩ _ _ _ :=
        decompose_emitsRoot value { st with stmts := [], tmpBufs := [] }
      obtain ⟨hle, ss, hs, us, hss, hhs, hus, heff⟩ := hemits.effects hbelow hbase
      rcases hd : decompose loops S ⟨buf, indices⟩ 0 value { st with stmts := [], tmpBufs := [] }
        with ⟨ok, st₁⟩
      rw [hd] at hv hle hss hhs hus heff
      cases ok with
      | true =>
        obtain ⟨rfl, rfl⟩ := Prod.mk.inj hv
        exact ⟨hle, ss, hs, us, fun calls hcalls => by
          rw [← Option.some.inj hcalls, hss, List.nil_append], hhs, hus, heff⟩
      | false =>
        obtain ⟨rfl, rfl⟩ := Prod.mk.inj hv
        exact ⟨hle, ss, hs, us, by simp, hhs, hus, heff⟩

/-- The body of a parallel loop, as `visitStmt` visits it. -/
def visitBody (S : Simplifier) (loops : List Loop) (body : Stmt V) (st : Emitter V) :
    Stmt V × Emitter V :=
  match body.asStore with
  | some (buf, indices, value) =>
    match vectorizeSingleStatement S loops buf indices value st with
    | (some calls, st) => (Stmt.prepend calls .nop, st)
    | (none, st) => (body, st)
  | none => visitStmt S loops body st

section Unfold

variable {kind : ForKind} {x : Var} {min extent : Index} {body : Stmt V} {n : ℤ}

theorem visitStmt_outermost (h : parallelExtent kind extent = some n) :
    visitStmt S [] (.forLoop kind x min extent body) st =
      let r := visitBody S [⟨x, min, n⟩] body st
      (Stmt.prepend r.2.hoisted (.forLoop kind x min extent r.1), { r.2 with hoisted := [] }) := by
  simp only [visitStmt, h]
  rfl

theorem visitStmt_inner (h : parallelExtent kind extent = some n) (hne : loops ≠ []) :
    visitStmt S loops (.forLoop kind x min extent body) st =
      let r := visitBody S (loops ++ [⟨x, min, n⟩]) body st
      (.forLoop kind x min extent r.1, r.2) := by
  have hempty : loops.isEmpty = false := by simpa using hne
  simp only [visitStmt, h, hempty]
  rfl

theorem visitStmt_serial (h : parallelExtent kind extent = none) :
    visitStmt S loops (.forLoop kind x min extent body) st =
      (.forLoop kind x min extent (visitStmt S loops body st).1, (visitStmt S loops body st).2) := by
  simp only [visitStmt, h]

end Unfold

/-- What visiting inside a nest emits: statements that write what the source writes
or new temporaries, and hoisted statements. -/
structure VisitEffects (S : Simplifier) (base : ℕ) (s : Stmt V)
    (sites : List (List Loop × Access × Expr V)) (st : Emitter V) (r : Stmt V × Emitter V) :
    Prop where
  next_le : st.next ≤ r.2.next
  added : ∃ ds hs, r.2.hoisted = st.hoisted ++ hs ∧
    Added base (fun _ => True) st.next r.2.next ds hs ∧
    (∀ d ∈ r.1.dests, d ∈ s.dests ∨ d ∈ ds) ∧
    ∀ h ∈ hs, ∀ x ∈ h.vars, ∃ site ∈ sites, ∃ e ∈ storeHoists site.1 S site.2.1 site.2.2,
      x ∈ e.hoistedVars site.1 S site.2.1

theorem VisitEffects.refl (s : Stmt V) (sites : List (List Loop × Access × Expr V))
    (st : Emitter V) : VisitEffects S base s sites st (s, st) :=
  ⟨le_rfl, [], [], by simp, .nil, fun _ hd => .inl hd, by simp⟩

theorem VisitEffects.around {s u o : Stmt V} {sites : List (List Loop × Access × Expr V)}
    {r : Stmt V × Emitter V} (h : VisitEffects S base s sites st r) (hu : u.dests = s.dests)
    (ho : o.dests = r.1.dests) : VisitEffects S base u sites st (o, r.2) := by
  obtain ⟨ds, hs, hhs, hadd, hds, hvars⟩ := h.added
  refine ⟨h.next_le, ds, hs, hhs, hadd, fun d hd => ?_, hvars⟩
  rw [hu]
  exact hds d (ho ▸ hd)

theorem VisitEffects.append {s t u o : Stmt V} {sites sites' : List (List Loop × Access × Expr V)}
    {r r' : Stmt V × Emitter V} (h : VisitEffects S base s sites st r)
    (h' : VisitEffects S base t sites' r.2 r') (hu : u.dests = s.dests ++ t.dests)
    (ho : o.dests = r.1.dests ++ r'.1.dests) :
    VisitEffects S base u (sites ++ sites') st (o, r'.2) := by
  obtain ⟨ds, hs, hhs, hadd, hds, hvars⟩ := h.added
  obtain ⟨ds', ks, hks, hadd', hds', hvars'⟩ := h'.added
  refine ⟨le_trans h.next_le h'.next_le, ds ++ ds', hs ++ ks, by rw [hks, hhs, List.append_assoc],
    hadd.append h.next_le h'.next_le hadd', fun d hd => ?_, fun k hk x hx => ?_⟩
  · rw [hu]
    rw [ho] at hd
    rcases List.mem_append.mp hd with hd | hd
    · exact (hds d hd).imp (List.mem_append_left _) (List.mem_append_left _)
    · exact (hds' d hd).imp (List.mem_append_right _) (List.mem_append_right _)
  · rcases List.mem_append.mp hk with hk | hk
    · obtain ⟨site, hsite, hrest⟩ := hvars k hk x hx
      exact ⟨site, List.mem_append_left _ hsite, hrest⟩
    · obtain ⟨site, hsite, hrest⟩ := hvars' k hk x hx
      exact ⟨site, List.mem_append_right _ hsite, hrest⟩

theorem asStore_eq_some {s : Stmt V} {buf : Buffer} {indices : List Index} {value : Expr V}
    (h : s.asStore = some (buf, indices, value)) : s = .store buf indices value := by
  cases s with
  | store b is v => simpa [Stmt.asStore] using h
  | _ => cases h

theorem parallelExtent_eq_some {kind : ForKind} {extent : Index} {n : ℤ}
    (h : parallelExtent kind extent = some n) : kind = .parallel ∧ extent = .const n := by
  cases kind <;> cases extent <;> simp_all [parallelExtent]

/-- A store below parallel loops. -/
theorem visitBody_store {buf : Buffer} {indices : List Index} {value : Expr V}
    (hloads : ∀ l ∈ value.loads, l.1.id < base) (hbase : base ≤ st.next) :
    VisitEffects S base (.store buf indices value) [(loops, ⟨buf, indices⟩, value)] st
      (visitBody S loops (.store buf indices value) st) := by
  obtain ⟨r, st', hv⟩ : ∃ r st', vectorizeSingleStatement S loops buf indices value st = (r, st') :=
    ⟨_, _, rfl⟩
  obtain ⟨hle, ss, hs, us, hss, hhs, -, heff⟩ := vectorizeSingleStatement_effects hloads hbase hv
  obtain ⟨ds, hadd, hds⟩ := heff.writes
  have hvars : ∀ h ∈ hs, ∀ x ∈ h.vars, ∃ site ∈ [(loops, (⟨buf, indices⟩ : Access), value)],
      ∃ e ∈ storeHoists site.1 S site.2.1 site.2.2, x ∈ e.hoistedVars site.1 S site.2.1 :=
    fun h hh x hx => ⟨_, List.mem_cons_self, heff.vars h hh x hx⟩
  rw [visitBody, Stmt.asStore]
  simp only [hv]
  cases r with
  | none => exact ⟨hle, ds, hs, hhs, hadd, fun d hd => .inl hd, hvars⟩
  | some calls =>
    refine ⟨hle, ds, hs, hhs, hadd, fun d hd => ?_, hvars⟩
    rw [Stmt.dests_prepend, hss calls rfl, Stmt.dests, List.append_nil] at hd
    obtain ⟨c, hc, rfl⟩ := mem_dests.mp hd
    exact (hds c hc).imp_left fun h => List.mem_singleton.mpr h

theorem visitStmt_effects {s : Stmt V} (hne : loops ≠ []) (hbelow : s.Below base)
    (hbase : base ≤ st.next) :
    VisitEffects S base s (s.sites loops) st (visitStmt S loops s st) := by
  induction s generalizing loops st with
  | seq s t ihs iht =>
    have hs := ihs hne hbelow.1 hbase
    exact hs.append (iht hne hbelow.2 (le_trans hbase hs.next_le)) rfl rfl
  | forLoop kind x min extent body ih =>
    rcases hkind : parallelExtent kind extent with _ | n
    · rw [visitStmt_serial hkind]
      simp only [Stmt.sites, hkind]
      exact (ih hne hbelow hbase).around rfl rfl
    · rw [visitStmt_inner hkind hne]
      rcases hstore : body.asStore with _ | ⟨buf, indices, value⟩
      · simp only [Stmt.sites, hkind, hstore, visitBody]
        exact (ih (List.concat_ne_nil _ _) hbelow hbase).around rfl rfl
      · obtain rfl := asStore_eq_some hstore
        simp only [Stmt.sites, hkind, hstore]
        exact (visitBody_store hbelow.2 hbase).around rfl rfl
  | ifThenElse cond s t ihs iht =>
    have hs := ihs hne hbelow.1 hbase
    exact hs.append (iht hne hbelow.2 (le_trans hbase hs.next_le)) rfl rfl
  | letStmt x value body ih => exact (ih hne hbelow hbase).around rfl rfl
  | store buf indices value => exact .refl _ _ st
  | eval call => exact .refl _ _ st
  | nop => exact .refl _ _ st

end Visit

/-! ## Along a run -/

section Run

variable (A : Alg V) (isTrue : V → Bool) (S : Simplifier)

/-- What holds of every store that the pass tries to decompose, each time a run of
the visited statement reaches it: `P` is given the parallel loops around the store,
the store, the emitter before it, and the environment and contents there. -/
def AlongRun (P : List Loop → Access → Expr V → Emitter V → Env V → Mem V → Prop) :
    List Loop → Stmt V → Emitter V → Env V → Mem V → Prop
  | loops, .seq s t, st, env, m =>
    AlongRun P loops s st env m ∧
      AlongRun P loops t (visitStmt S loops s st).2 env
        ((visitStmt S loops s st).1.run A isTrue env m)
  | loops, .forLoop kind x min extent body, st, env, m =>
    ∀ k < (extent.eval (A.ints env)).toNat,
      let start := min.eval (A.ints env)
      let env' := Function.update env x (A.ofInt (start + k))
      let iterate (body' : Stmt V) (m : Mem V) : Mem V :=
        countLoop (fun i m => body'.run A isTrue (Function.update env x (A.ofInt i)) m) k start m
      match parallelExtent kind extent with
      | some n =>
        let loops' := loops ++ [⟨x, min, n⟩]
        let r := visitBody S loops' body st
        -- what is hoisted has run before the outermost loop
        let m' := iterate r.1 (if loops.isEmpty then execAll A env r.2.hoisted m else m)
        match body.asStore with
        | some (buf, indices, value) => P loops' ⟨buf, indices⟩ value st env' m'
        | none => AlongRun P loops' body st env' m'
      | none => AlongRun P loops body st env' (iterate (visitStmt S loops body st).1 m)
  | loops, .ifThenElse cond s t, st, env, m =>
    if isTrue (cond.eval A env m) then AlongRun P loops s st env m
    else AlongRun P loops t (visitStmt S loops s st).2 env m
  | loops, .letStmt x value body, st, env, m =>
    AlongRun P loops body st (Function.update env x (value.eval A env m)) m
  | _, .store _ _ _, _, _, _ => True
  | _, .eval _, _, _, _ => True
  | _, .nop, _, _, _ => True

/-- Every access that stands for a hoisted expression reads, at any point of the
emitted statements, the value the expression has where the store was. -/
def UsesHold (loops : List Loop) (out : Access) (value : Expr V) (st : Emitter V) (env : Env V)
    (m : Mem V) : Prop :=
  ∀ calls st', vectorizeSingleStatement S loops out.buffer out.indices value st = (some calls, st') →
    ∀ u ∈ st'.uses.drop st.uses.length, ∀ before after, calls = before ++ after →
      A.load env (execAll A env before m) u.1.buffer u.1.indices = u.2.eval A env m

/-- What was materialized for a part is read back at the output's indices. -/
def PartExact (env : Env V) (loops : List Loop) (out : Access) : Expr V → Prop
  | .var x => ∀ j, loopOf loops x = some j → ArangeExact A env loops out j
  | .load _ indices => BroadcastExact A env loops (indices.map S.simplify) out
  | _ => ∀ n ∈ out.buffer.shape, 0 < n.eval (A.ints env)

/-- Where a store is decomposed, its hoisted parts are read back and have the value
they had in the contents `m₀` before the nest. -/
def HoistFits (m₀ : Mem V) (loops : List Loop) (out : Access) (value : Expr V) (st : Emitter V)
    (env : Env V) (m : Mem V) : Prop :=
  (vectorizeSingleStatement S loops out.buffer out.indices value st).1.isSome = true →
    ∀ e ∈ storeHoists loops S out value,
      PartExact A S env loops out e ∧ e.eval A env m = e.eval A env m₀

end Run

section Sound

variable {A : Alg V} {isTrue : V → Bool} {S : Simplifier} {env₀ env : Env V} {bound : List Var}
  {loops : List Loop} {s t : Stmt V}

/-- The environment inside a nest: it differs from the one before in what the nest
binds, and the loop variables are in range. -/
structure Inside (A : Alg V) (env₀ : Env V) (bound : List Var) (loops : List Loop) (s : Stmt V)
    (env : Env V) : Prop where
  outside : ∀ x, x ∉ bound → env x = env₀ x
  entered : Iteration A loops env env
  nodup : (loops.map Loop.var).Nodup
  loopVars : ∀ l ∈ loops, l.var ∉ s.binds
  mins : ∀ l ∈ loops, ∀ x ∈ l.min.vars, x ∉ s.binds
  binds : ∀ x ∈ s.binds, x ∈ bound

theorem Inside.sub (h : Inside A env₀ bound loops s env) (hsub : ∀ x ∈ t.binds, x ∈ s.binds) :
    Inside A env₀ bound loops t env :=
  { h with
    loopVars := fun l hl hx => h.loopVars l hl (hsub _ hx)
    mins := fun l hl x hx hb => h.mins l hl x hx (hsub x hb)
    binds := fun x hx => h.binds x (hsub x hx) }

/-- Binding a variable of the statement leaves the loops around it as they are. -/
theorem Inside.bind (h : Inside A env₀ bound loops s env) {x : Var} (hx : x ∈ s.binds)
    (hsub : ∀ y ∈ t.binds, y ∈ s.binds) (v : V) :
    Inside A env₀ bound loops t (Function.update env x v) := by
  have hne : ∀ y, y ∉ s.binds → y ≠ x := by
    rintro y hy rfl
    exact hy hx
  have hloop : ∀ l ∈ loops, Function.update env x v l.var = env l.var := fun l hl =>
    Function.update_of_ne (hne _ (h.loopVars l hl)) _ _
  have hints : ∀ l ∈ loops, A.ints (Function.update env x v) l.var = A.ints env l.var :=
    fun l hl => by rw [Alg.ints, Alg.ints, hloop l hl]
  have hmin : ∀ l ∈ loops, l.min.eval (A.ints (Function.update env x v)) =
      l.min.eval (A.ints env) := by
    refine fun l hl => Index.eval_congr fun y hy => ?_
    rw [Alg.ints, Alg.ints, Function.update_of_ne (hne y (h.mins l hl y hy))]
  refine { h.sub hsub with outside := fun y hy => ?_, entered := ?_ }
  · rw [Function.update_of_ne (hne y fun hyb => hy (h.binds y hyb))]
    exact h.outside y hy
  · refine ⟨fun _ _ => rfl, fun l hl => ?_, fun l hl => ?_, fun l hl => ?_⟩
    · rw [hints l hl, hloop l hl]
      exact h.entered.counter l hl
    · rw [hints l hl, hmin l hl]
      exact h.entered.lower l hl
    · rw [hints l hl, hmin l hl]
      exact h.entered.upper l hl

/-- Entering a parallel loop. -/
theorem Inside.enter {kind : ForKind} {x : Var} {min extent : Index} {body : Stmt V} {n i : ℤ}
    (h : Inside A env₀ bound loops (.forLoop kind x min extent body) env)
    (hx : x ∉ body.binds) (hmin : ∀ y ∈ min.vars, y ∉ x :: body.binds)
    (hlo : min.eval (A.ints env) ≤ i) (hup : i < min.eval (A.ints env) + n) :
    Inside A env₀ bound (loops ++ [⟨x, min, n⟩]) body (Function.update env x (A.ofInt i)) := by
  have hbody : ∀ y ∈ body.binds, y ∈ (Stmt.forLoop kind x min extent body).binds :=
    fun y hy => List.mem_cons_of_mem _ hy
  have hself : x ∈ (Stmt.forLoop kind x min extent body).binds := List.mem_cons_self
  have hbind := h.bind hself hbody (A.ofInt i)
  have hint : A.ints (Function.update env x (A.ofInt i)) x = i := by
    rw [Alg.ints, Function.update_self, A.toInt_ofInt]
  have hstart : min.eval (A.ints (Function.update env x (A.ofInt i))) = min.eval (A.ints env) := by
    refine Index.eval_congr fun y hy => ?_
    have hne : y ≠ x := by
      rintro rfl
      exact hmin y hy List.mem_cons_self
    rw [Alg.ints, Alg.ints, Function.update_of_ne hne]
  refine ⟨hbind.outside, ⟨fun _ _ => rfl, fun l hl => ?_, fun l hl => ?_, fun l hl => ?_⟩, ?_,
    fun l hl => ?_, fun l hl => ?_, hbind.binds⟩
  case refine_4 =>
    rw [List.map_append, List.nodup_append]
    refine ⟨h.nodup, List.nodup_singleton _, fun y hy z hz => ?_⟩
    obtain ⟨l, hl, rfl⟩ := List.mem_map.mp hy
    obtain rfl := List.mem_singleton.mp hz
    exact fun hlx => h.loopVars l hl (hlx ▸ hself)
  all_goals rcases List.mem_append.mp hl with hl | hl
  · exact hbind.entered.counter l hl
  · obtain rfl := List.mem_singleton.mp hl
    rw [hint, Function.update_self]
  · exact hbind.entered.lower l hl
  · obtain rfl := List.mem_singleton.mp hl
    rw [hint, hstart]
    exact hlo
  · exact hbind.entered.upper l hl
  · obtain rfl := List.mem_singleton.mp hl
    rw [hint, hstart]
    exact hup
  · exact hbind.loopVars l hl
  · obtain rfl := List.mem_singleton.mp hl
    exact hx
  · exact hbind.mins l hl
  · obtain rfl := List.mem_singleton.mp hl
    exact fun y hy hyb => hmin y hy (List.mem_cons_of_mem _ hyb)

variable {base : ℕ} {hs : List (TileCall V)} {m₀ m₁ m : Mem V} {st st' : Emitter V}

/-- The contents `m₁` after the hoisted statements `hs` have run on `m₀`. -/
structure Filled (A : Alg V) (env₀ : Env V) (bound : List Var) (base : ℕ) (hs : List (TileCall V))
    (m₀ m₁ : Mem V) : Prop where
  stable : ∀ h ∈ hs, Stable A env₀ m₁ h
  vars : ∀ h ∈ hs, ∀ x ∈ h.vars, x ∉ bound
  below : ∀ b < base, m₁ b = m₀ b

/-- Right after hoisting, an access reads the expression it stands for. -/
theorem UseOf.load_eq {out a : Access} {e : Expr V} {ks : List (TileCall V)}
    (huse : UseOf loops S out ks a e) (hsub : ∀ h ∈ ks, h ∈ hs)
    (hfill : Filled A env₀ bound base hs m₀ m₁) (hin : Inside A env₀ bound loops s env)
    (hout : ∀ e ∈ out.indices, e.isVar = true ∨ e.isConst = true)
    (hexact : PartExact A S env loops out e) :
    A.load env m₁ a.buffer a.indices = e.eval A env m₁ := by
  have hstable : ∀ h ∈ ks, Stable A env m₁ h := by
    intro h hh
    have hsame : h.exec A env m₁ = h.exec A env₀ m₁ :=
      TileCall.exec_congr_env fun x hx => hin.outside x (hfill.vars h (hsub h hh) x hx)
    exact hsame.trans (hfill.stable h (hsub h hh))
  let N : Stack := ⟨loops, hin.nodup⟩
  cases huse with
  | arange x j n c a hj hc hmem =>
    obtain ⟨l, hl, rfl⟩ := getElem?_of_loopOf hj
    exact arange_value (N := N) hl hout (hexact j hj) hin.entered hc (hstable c hmem)
  | load buf indices indices' cs a n n' hmap hbuf hc hmem =>
    obtain ⟨rfl, hsup⟩ := supported_of_mapM hmap
    exact broadcast_value (N := N) hbuf hout hsup (evals_simplify indices) hexact hin.entered hc
      fun c hcs => hstable c (hmem c hcs)
  | scalar e b hscalar hvars hshape hmem =>
    obtain ⟨hvar, hload⟩ := compound_of_not_scalarLike hscalar hvars
    rw [PartExact] at hexact
    · exact hoistedScalar_value (hshape ▸ hexact) rfl (hstable _ hmem)
    · exact hvar
    · exact hload

/-- A decomposed store inside the nest reads its hoisted temporaries right. -/
theorem usesHold_of_fits {buf : Buffer} {indices : List Index} {value : Expr V}
    (hfill : Filled A env₀ bound base hs m₀ m₁) (hin : Inside A env₀ bound loops s env)
    (hloads : ∀ l ∈ value.loads, l.1.id < base) (hbase : base ≤ st.next)
    (hsub : ∀ h ∈ (visitBody S loops (.store buf indices value) st).2.hoisted, h ∈ hs)
    (hdests : ∀ d ∈ (visitBody S loops (.store buf indices value) st).1.dests, d ∉ dests hs)
    (hm : ∀ d ∈ dests hs, m d = m₁ d)
    (hfits : HoistFits A S m₀ loops ⟨buf, indices⟩ value st env m) :
    UsesHold A S loops ⟨buf, indices⟩ value st env m := by
  intro calls st' hv u hu before after hcalls
  simp only [visitBody, Stmt.asStore, hv] at hsub hdests
  obtain ⟨-, ss, ks, us, hss, hks, hus, heff⟩ := vectorizeSingleStatement_effects hloads hbase hv
  rw [hus, List.drop_left] at hu
  obtain ⟨hpart, huse, hdst⟩ := heff.uses u hu
  have hks' : ∀ h ∈ ks, h ∈ hs := fun h hh => hsub h (by rw [hks]; exact List.mem_append_right _ hh)
  have hdst' : u.1.buffer.id ∈ dests hs := by
    obtain ⟨h, hh, hid⟩ := mem_dests.mp hdst
    exact mem_dests.mpr ⟨h, hks' h hh, hid⟩
  have hout : ∀ e ∈ indices, e.isVar = true ∨ e.isConst = true := by
    rw [vectorizeSingleStatement] at hv
    split at hv
    · rename_i hindices
      simpa using hindices
    · cases hv
  obtain ⟨hexact, hvalue⟩ := hfits (by rw [hv]; rfl) u.2 hpart
  have hframe : execAll A env before m u.1.buffer.id = m u.1.buffer.id := by
    refine execAll_of_forall_ne fun c hc hid => ?_
    refine hdests c.dst.buf.id ?_ (hid ▸ hdst')
    rw [Stmt.dests_prepend, hcalls]
    exact List.mem_append_left _ (mem_dests.mpr ⟨c, List.mem_append_left _ hc, rfl⟩)
  have hbelow : u.2.eval A env m₁ = u.2.eval A env m₀ := by
    refine Expr.eval_congr (fun _ _ => rfl) fun l hl => hfill.below _ (hloads l ?_)
    exact mem_loads_of_mem_storeHoists hpart hl
  calc A.load env (execAll A env before m) u.1.buffer u.1.indices
      = A.load env m₁ u.1.buffer u.1.indices := by rw [Alg.load, hframe, hm _ hdst', Alg.load]
    _ = u.2.eval A env m₁ := huse.load_eq hks' hfill hin hout hexact
    _ = u.2.eval A env m := by rw [hbelow, hvalue]

/-- Iterating a body that leaves the temporaries alone. -/
theorem countLoop_frame {body : Stmt V} {x : Var} {k : ℕ} {i : ℤ} {d : ℕ} (hd : d ∉ body.dests) :
    countLoop (fun i m => body.run A isTrue (Function.update env x (A.ofInt i)) m) k i m d = m d :=
  countLoop_inv (P := fun m' : Mem V => m' d = m d)
    (fun _ _ hm' => (Stmt.run_of_not_mem_dests hd).trans hm') k i m rfl

/-- Inside the nest, every decomposed store that a run reaches reads its hoisted
temporaries right. -/
theorem alongRun_usesHold (hfill : Filled A env₀ bound base hs m₀ m₁) (hne : loops ≠ [])
    (hin : Inside A env₀ bound loops s env) (hbelow : s.Below base) (hscoped : s.WellScoped)
    (hbase : base ≤ st.next) (hsub : ∀ h ∈ (visitStmt S loops s st).2.hoisted, h ∈ hs)
    (hdests : ∀ d ∈ (visitStmt S loops s st).1.dests, d ∉ dests hs)
    (hm : ∀ d ∈ dests hs, m d = m₁ d)
    (hfits : AlongRun A isTrue S (HoistFits A S m₀) loops s st env m) :
    AlongRun A isTrue S (UsesHold A S) loops s st env m := by
  induction s generalizing loops st env m with
  | seq s t ihs iht =>
    have hvisit := visitStmt_effects (S := S) hne hbelow.1 hbase
    have hbase' := le_trans hbase hvisit.next_le
    have hvisit' := visitStmt_effects (S := S) hne hbelow.2 hbase'
    simp only [visitStmt, Stmt.dests, List.mem_append] at hsub hdests
    refine ⟨ihs hne (hin.sub fun x hx => List.mem_append_left _ hx) hbelow.1 hscoped.1 hbase
      (fun h hh => hsub h ?_) (fun d hd => hdests d (.inl hd)) hm hfits.1,
      iht hne (hin.sub fun x hx => List.mem_append_right _ hx) hbelow.2 hscoped.2 hbase'
      hsub (fun d hd => hdests d (.inr hd)) (fun d hd => ?_) hfits.2⟩
    · obtain ⟨-, ks, hks, -⟩ := hvisit'.added
      rw [hks]
      exact List.mem_append_left _ hh
    · rw [Stmt.run_of_not_mem_dests fun hd' => hdests d (.inl hd') hd]
      exact hm d hd
  | forLoop kind x min extent body ih =>
    obtain ⟨hx, hmin, hscoped⟩ := hscoped
    intro k hk
    have hfits := hfits k hk
    rcases hkind : parallelExtent kind extent with _ | n
    · rw [visitStmt_serial hkind] at hsub hdests
      have hdests : ∀ d ∈ (visitStmt S loops body st).1.dests, d ∉ dests hs := hdests
      simp only [hkind] at hfits ⊢
      refine ih hne (hin.bind List.mem_cons_self (fun y hy => List.mem_cons_of_mem _ hy) _) hbelow
        hscoped hbase hsub hdests (fun d hd => ?_) hfits
      exact (countLoop_frame fun hd' => hdests d hd' hd).trans (hm d hd)
    · obtain ⟨rfl, rfl⟩ := parallelExtent_eq_some hkind
      have hempty : loops.isEmpty = false := by simpa using hne
      have hk' : (k : ℤ) < n := by
        simp only [Index.eval] at hk
        omega
      have hin' := hin.enter hx hmin (i := min.eval (A.ints env) + k) (n := n) (by omega) (by omega)
      rw [visitStmt_inner hkind hne] at hsub hdests
      have hdests : ∀ d ∈ (visitBody S (loops ++ [⟨x, min, n⟩]) body st).1.dests, d ∉ dests hs :=
        hdests
      simp only [hkind, hempty, Bool.false_eq_true, if_false] at hfits ⊢
      rcases hstore : body.asStore with _ | ⟨buf, indices, value⟩
      · simp only [hstore] at hfits ⊢
        simp only [visitBody, hstore] at hsub hdests hfits ⊢
        refine ih (List.concat_ne_nil _ _) hin' hbelow hscoped hbase hsub hdests (fun d hd => ?_) hfits
        exact (countLoop_frame fun hd' => hdests d hd' hd).trans (hm d hd)
      · obtain rfl := asStore_eq_some hstore
        refine usesHold_of_fits hfill hin' hbelow.2 hbase hsub hdests (fun d hd => ?_) hfits
        exact (countLoop_frame fun hd' => hdests d hd' hd).trans (hm d hd)
  | ifThenElse cond s t ihs iht =>
    have hvisit := visitStmt_effects (S := S) hne hbelow.1 hbase
    have hbase' := le_trans hbase hvisit.next_le
    have hvisit' := visitStmt_effects (S := S) hne hbelow.2 hbase'
    simp only [visitStmt, Stmt.dests, List.mem_append] at hsub hdests
    simp only [AlongRun] at hfits ⊢
    split
    · rename_i hcond
      rw [if_pos hcond] at hfits
      refine ihs hne (hin.sub fun x hx => List.mem_append_left _ hx) hbelow.1 hscoped.1 hbase
        (fun h hh => hsub h ?_) (fun d hd => hdests d (.inl hd)) hm hfits
      obtain ⟨-, ks, hks, -⟩ := hvisit'.added
      rw [hks]
      exact List.mem_append_left _ hh
    · rename_i hcond
      rw [if_neg hcond] at hfits
      exact iht hne (hin.sub fun x hx => List.mem_append_right _ hx) hbelow.2 hscoped.2 hbase'
        hsub (fun d hd => hdests d (.inr hd)) hm hfits
  | letStmt x value body ih =>
    exact ih hne (hin.bind List.mem_cons_self (fun y hy => List.mem_cons_of_mem _ hy) _) hbelow
      hscoped.2 hbase hsub hdests hm hfits
  | store buf indices value => trivial
  | eval call => trivial
  | nop => trivial

/-- Hoisting out of an outermost parallel loop is right: what runs before it is in
scope there, and along the run every use of a hoisted temporary reads the value of
the expression it replaced. -/
structure HoistSound (A : Alg V) (isTrue : V → Bool) (S : Simplifier) (x : Var) (min : Index) (n : ℤ)
    (body : Stmt V) (st : Emitter V) (env : Env V) (m : Mem V) : Prop where
  scope : ∀ h ∈ (visitBody S [⟨x, min, n⟩] body st).2.hoisted, ∀ y ∈ h.vars, y ∉ x :: body.binds
  uses : AlongRun A isTrue S (UsesHold A S) [] (.forLoop .parallel x min (.const n) body) st env m

end Sound

/-- `for i in T.Parallel(2): out[i] = i + s`. -/
def rowCount : Stmt ℤ :=
  .store (rowAccess 0).buffer (rowAccess 0).indices (.binary .add (.var ⟨0, .int32⟩) scalarS)

/-- `for t in range(2): for j in T.Parallel(2): out[i, j] = B[t, j] + 1`, below
`for i in T.Parallel(2)`. -/
def serialRow : Stmt ℤ :=
  .forLoop .serial ⟨2, .int32⟩ (.const 0) (.const 2) (.forLoop .parallel ⟨1, .int32⟩ (.const 0)
    (.const 2) (.store squareOut.buffer squareOut.indices (.binary .add
      (.load ⟨1, [.const 2, .const 2], .int32⟩ [.var ⟨2, .int32⟩, .var ⟨1, .int32⟩])
      (.imm 1 .int32))))

end TileLangNpuir.LoopVectorize
