import TileLangNpuir.LoopVectorize.Depth
import TileLangNpuir.LoopVectorize.HoistRun
import TileLangNpuir.LoopVectorize.Renumber

/-!
# Stores that are not decomposed

When the attempt at a store fails, the loop around it is left as it was. What the attempt
had hoisted stays, but nothing else comes of it: the other stores of the nest are decomposed
as they would be with a no-op in the place of the failing ones, only with other numbers for
their temporaries.
-/

namespace TileLangNpuir.LoopVectorize

variable {V : Type}

section

variable (S : Simplifier) (base : ℕ)

/-- The attempt at a store fails. Buffers from `base` on are new; what was emitted before makes
no difference (`isNone_vectorizeSingleStatement`). -/
def fallsBack (loops : List Loop) (buf : Buffer) (indices : List Index) (value : Expr V) : Bool :=
  (vectorizeSingleStatement S loops buf indices value ⟨[], [], [], base, []⟩).1.isNone

/-- A no-op in the place of every store whose attempt fails. -/
def Stmt.withoutFallbacks : List Loop → Stmt V → Stmt V
  | loops, .seq s t => .seq (s.withoutFallbacks loops) (t.withoutFallbacks loops)
  | loops, .forLoop kind x min extent body =>
    match parallelExtent kind extent with
    | some n =>
      match body.asStore with
      | some (buf, indices, value) =>
        .forLoop kind x min extent
          (if fallsBack S base (loops ++ [⟨x, min, n⟩]) buf indices value then .nop else body)
      | none => .forLoop kind x min extent (body.withoutFallbacks (loops ++ [⟨x, min, n⟩]))
    | none => .forLoop kind x min extent (body.withoutFallbacks loops)
  | loops, .ifThenElse cond s t =>
    .ifThenElse cond (s.withoutFallbacks loops) (t.withoutFallbacks loops)
  | loops, .letStmt x value body => .letStmt x value (body.withoutFallbacks loops)
  | _, .store buf indices value => .store buf indices value
  | _, .eval call => .eval call
  | _, .nop => .nop

/-- What becomes of a statement, `o` without and `o'` with the failing stores: a failing store
stands in its loops as it was, the calls of the others are the same under other numbers, and
everything else is the same. -/
def SameElsewhere (g : ℕ → ℕ) : List Loop → Stmt V → Stmt V → Stmt V → Prop
  | loops, .seq s t, o, o' =>
    ∃ p q p' q', o = .seq p q ∧ o' = .seq p' q' ∧ SameElsewhere g loops s p p' ∧
      SameElsewhere g loops t q q'
  | loops, .forLoop kind x min extent body, o, o' =>
    ∃ p p', o = .forLoop kind x min extent p ∧ o' = .forLoop kind x min extent p' ∧
      match parallelExtent kind extent with
      | some n =>
        match body.asStore with
        | some (buf, indices, value) =>
          if fallsBack S base (loops ++ [⟨x, min, n⟩]) buf indices value then p = .nop ∧ p' = body
          else ∃ calls, p = Stmt.prepend calls .nop ∧
            p' = Stmt.prepend (calls.map (TileCall.renumber g)) .nop
        | none => SameElsewhere g (loops ++ [⟨x, min, n⟩]) body p p'
      | none => SameElsewhere g loops body p p'
  | loops, .ifThenElse cond s t, o, o' =>
    ∃ p q p' q', o = .ifThenElse cond p q ∧ o' = .ifThenElse cond p' q' ∧
      SameElsewhere g loops s p p' ∧ SameElsewhere g loops t q q'
  | loops, .letStmt x value body, o, o' =>
    ∃ p p', o = .letStmt x value p ∧ o' = .letStmt x value p' ∧ SameElsewhere g loops body p p'
  | _, .store buf indices value, o, o' => o = .store buf indices value ∧ o' = .store buf indices value
  | _, .eval call, o, o' => o = .eval call ∧ o' = .eval call
  | _, .nop, o, o' => o = .nop ∧ o' = .nop

end

/-! ## Attempts -/

section

variable {S : Simplifier} {base : ℕ} {g : ℕ → ℕ} {loops : List Loop} {buf : Buffer}
  {indices : List Index} {value : Expr V} {st st' : Emitter V}

/-- Two attempts at a store. -/
structure TwinAttempt (g : ℕ → ℕ) (st st' : Emitter V)
    (r r' : Option (List (TileCall V)) × Emitter V) : Prop where
  calls : r'.1 = r.1.map (List.map (TileCall.renumber g))
  next : ∀ k, g (r.2.next + k) = r'.2.next + k
  next_le : st.next ≤ r.2.next
  hoisted : ∃ cs, r.2.hoisted = st.hoisted ++ cs ∧
    r'.2.hoisted = st'.hoisted ++ cs.map (TileCall.renumber g) ∧ ∀ c ∈ cs, c.Older r.2.next
  older : ∀ cs, r.1 = some cs → ∀ c ∈ cs, c.Older r.2.next

theorem twin_begin (hbase : base ≤ st.next) (hnext : ∀ k, g (st.next + k) = st'.next + k) :
    Twin base g st.hoisted st'.hoisted { st with stmts := [], tmpBufs := [] }
      { st' with stmts := [], tmpBufs := [] } where
  base_le := hbase
  next := hnext
  stmts := rfl
  tmpBufs := rfl
  hoisted := ⟨[], by simp⟩
  older := by simp
  tmpOlder := by simp

theorem vectorizeSingleStatement_twin (S : Simplifier) (loops : List Loop) (st st' : Emitter V)
    (hfix : ∀ i < base, g i = i)
    (hbelow : (Stmt.store buf indices value).Below base) (hbase : base ≤ st.next)
    (hnext : ∀ k, g (st.next + k) = st'.next + k) :
    TwinAttempt g st st' (vectorizeSingleStatement S loops buf indices value st)
      (vectorizeSingleStatement S loops buf indices value st') := by
  have hsame : TwinAttempt g st st' (none, st) (none, st') :=
    ⟨rfl, hnext, le_rfl, ⟨[], by simp⟩, by simp⟩
  rw [vectorizeSingleStatement, vectorizeSingleStatement]
  split
  · split
    · have hanswer : TwinAnswer base g st.hoisted st'.hoisted { st with stmts := [], tmpBufs := [] }
          (decompose loops S ⟨buf, indices⟩ 0 value { st with stmts := [], tmpBufs := [] })
          (decompose loops S ⟨buf, indices⟩ 0 value { st' with stmts := [], tmpBufs := [] }) :=
        decompose_twin hfix hbelow.1 hbelow.2 (twin_begin hbase hnext)
      obtain ⟨b, st₁, hd⟩ : ∃ b st₁, decompose loops S ⟨buf, indices⟩ 0 value
        { st with stmts := [], tmpBufs := [] } = (b, st₁) := ⟨_, _, rfl⟩
      obtain ⟨b', st₁', hd'⟩ : ∃ b' st₁', decompose loops S ⟨buf, indices⟩ 0 value
        { st' with stmts := [], tmpBufs := [] } = (b', st₁') := ⟨_, _, rfl⟩
      rw [hd, hd'] at hanswer
      rw [hd, hd']
      obtain rfl : b' = b := hanswer.answer
      have htwin := hanswer.twin
      cases b' with
      | true =>
        refine ⟨?_, htwin.next, hanswer.next_le, htwin.hoisted, fun cs hcs => ?_⟩
        · exact congrArg some htwin.stmts
        · obtain rfl := Option.some.inj hcs
          exact htwin.older
      | false => exact ⟨rfl, htwin.next, hanswer.next_le, htwin.hoisted, by rintro _ ⟨⟩⟩
    · exact hsame
  · exact hsame

/-- Whether an attempt fails does not depend on what was emitted before. -/
theorem isNone_vectorizeSingleStatement (S : Simplifier) (loops : List Loop) (st : Emitter V)
    (hbelow : (Stmt.store buf indices value).Below base) :
    (vectorizeSingleStatement S loops buf indices value st).1.isNone =
      fallsBack S base loops buf indices value := by
  let g : ℕ → ℕ := fun i => if i < base then i else i - base + st.next
  have hfix : ∀ i < base, g i = i := fun i hi => if_pos hi
  have hnext : ∀ k, g (base + k) = st.next + k := by
    intro k
    refine (if_neg (by omega)).trans ?_
    omega
  have htwin := vectorizeSingleStatement_twin S loops ⟨[], [], [], base, []⟩ st hfix hbelow le_rfl
    hnext
  rw [fallsBack, htwin.calls, Option.isNone_map]

end

/-! ## The nest -/

section

variable (S : Simplifier) (base : ℕ)

/-- Two visits, `r` without and `r'` with the failing stores: `g` takes the buffers the one has
created so far to those of the other, and `R` says what the statements have to do with
each other. -/
structure TwinVisit (R : (ℕ → ℕ) → Stmt V → Stmt V → Prop) (g₀ g : ℕ → ℕ) (st st' : Emitter V)
    (r r' : Stmt V × Emitter V) : Prop where
  agree : ∀ i < st.next, g i = g₀ i
  mono : StrictMono g
  next : ∀ k, g (r.2.next + k) = r'.2.next + k
  next_le : st.next ≤ r.2.next
  same : ∀ f, (∀ i < r.2.next, f i = g i) → R f r.1 r'.1
  hoisted : ∃ cs ds, r.2.hoisted = st.hoisted ++ cs ∧ r'.2.hoisted = st'.hoisted ++ ds ∧
    ∀ f, (∀ i < r.2.next, f i = g i) → (cs.map (TileCall.renumber f)).Sublist ds

end

section

variable {S : Simplifier} {base : ℕ} {g₀ g : ℕ → ℕ} {loops : List Loop} {st st' : Emitter V}

/-- A statement that the pass does not change. -/
theorem TwinVisit.refl {R : (ℕ → ℕ) → Stmt V → Stmt V → Prop} {o o' : Stmt V} (hmono : StrictMono g)
    (hnext : ∀ k, g (st.next + k) = st'.next + k) (hR : ∀ f, R f o o') :
    TwinVisit R g g st st' (o, st) (o', st') where
  agree _ _ := rfl
  mono := hmono
  next := hnext
  next_le := le_rfl
  same f _ := hR f
  hoisted := ⟨[], [], by simp⟩

theorem TwinVisit.around {R R' : (ℕ → ℕ) → Stmt V → Stmt V → Prop} {r r' : Stmt V × Emitter V}
    {o o' : Stmt V} (h : TwinVisit R g₀ g st st' r r') (hR : ∀ f, R f r.1 r'.1 → R' f o o') :
    TwinVisit R' g₀ g st st' (o, r.2) (o', r'.2) where
  agree := h.agree
  mono := h.mono
  next := h.next
  next_le := h.next_le
  same f hf := hR f (h.same f hf)
  hoisted := h.hoisted

/-- One visit after another. -/
theorem TwinVisit.append {R R' R'' : (ℕ → ℕ) → Stmt V → Stmt V → Prop} {g₁ : ℕ → ℕ}
    {r r' q q' : Stmt V × Emitter V} {o o' : Stmt V} (h : TwinVisit R g₀ g₁ st st' r r')
    (h' : TwinVisit R' g₁ g r.2 r'.2 q q')
    (hR : ∀ f, R f r.1 r'.1 → R' f q.1 q'.1 → R'' f o o') :
    TwinVisit R'' g₀ g st st' (o, q.2) (o', q'.2) := by
  have hagree : ∀ f : ℕ → ℕ, (∀ i < q.2.next, f i = g i) → ∀ i < r.2.next, f i = g₁ i :=
    fun f hf i hi => (hf i (lt_of_lt_of_le hi h'.next_le)).trans (h'.agree i hi)
  refine ⟨fun i hi => ?_, h'.mono, h'.next, h.next_le.trans h'.next_le, fun f hf => ?_, ?_⟩
  · exact (h'.agree i (lt_of_lt_of_le hi h.next_le)).trans (h.agree i hi)
  · exact hR f (h.same f (hagree f hf)) (h'.same f hf)
  · obtain ⟨cs, ds, hcs, hds, hsub⟩ := h.hoisted
    obtain ⟨cs', ds', hcs', hds', hsub'⟩ := h'.hoisted
    refine ⟨cs ++ cs', ds ++ ds', ?_, ?_, fun f hf => ?_⟩
    · rw [hcs', hcs, List.append_assoc]
    · rw [hds', hds, List.append_assoc]
    · rw [List.map_append]
      exact (hsub f (hagree f hf)).append (hsub' f hf)

/-- A failing attempt in the second run only: from there on, its buffers have greater
numbers. -/
theorem TwinVisit.skip {R : (ℕ → ℕ) → Stmt V → Stmt V → Prop} {o o' : Stmt V} {st₁ : Emitter V}
    (hmono : StrictMono g) (hnext : ∀ k, g (st.next + k) = st'.next + k)
    (hle : st'.next ≤ st₁.next) (hhoisted : ∃ ds, st₁.hoisted = st'.hoisted ++ ds)
    (hR : ∀ f, R f o o') : ∃ g₁, TwinVisit R g g₁ st st' (o, st) (o', st₁) := by
  let g₁ : ℕ → ℕ := fun i => if i < st.next then g i else i - st.next + st₁.next
  have hbefore : ∀ i < st.next, g₁ i = g i := fun i hi => if_pos hi
  have hafter : ∀ i, st.next ≤ i → g₁ i = i - st.next + st₁.next :=
    fun i hi => if_neg (Nat.not_lt.mpr hi)
  refine ⟨g₁, hbefore, fun i j hij => ?_, fun k => ?_, le_rfl, fun f _ => hR f, ?_⟩
  · by_cases hj : j < st.next
    · rw [hbefore i (hij.trans hj), hbefore j hj]
      exact hmono hij
    · rw [hafter j (Nat.le_of_not_lt hj)]
      by_cases hi : i < st.next
      · rw [hbefore i hi]
        have hstep := hmono hi
        have hzero := hnext 0
        rw [Nat.add_zero] at hzero
        omega
      · rw [hafter i (Nat.le_of_not_lt hi)]
        omega
  · rw [hafter _ (Nat.le_add_right _ _), Nat.add_sub_cancel_left, Nat.add_comm]
  · obtain ⟨ds, hds⟩ := hhoisted
    exact ⟨[], ds, by simp, hds, fun _ _ => List.nil_sublist ds⟩

/-- The body of a parallel loop. -/
def dropBody (S : Simplifier) (base : ℕ) (loops : List Loop) (body : Stmt V) : Stmt V :=
  match body.asStore with
  | some (buf, indices, value) => if fallsBack S base loops buf indices value then .nop else body
  | none => body.withoutFallbacks S base loops

def SameBody (S : Simplifier) (base : ℕ) (loops : List Loop) (body : Stmt V) (f : ℕ → ℕ)
    (p p' : Stmt V) : Prop :=
  match body.asStore with
  | some (buf, indices, value) =>
    if fallsBack S base loops buf indices value then p = .nop ∧ p' = body
    else ∃ calls, p = Stmt.prepend calls .nop ∧
      p' = Stmt.prepend (calls.map (TileCall.renumber f)) .nop
  | none => SameElsewhere S base f loops body p p'

section Unfold

variable {kind : ForKind} {x : Var} {min extent : Index} {body : Stmt V} {n : ℤ}

theorem withoutFallbacks_parallel (h : parallelExtent kind extent = some n) :
    (Stmt.forLoop kind x min extent body).withoutFallbacks S base loops =
      .forLoop kind x min extent (dropBody S base (loops ++ [⟨x, min, n⟩]) body) := by
  simp only [Stmt.withoutFallbacks, h, dropBody]
  cases body.asStore <;> rfl

theorem sameElsewhere_parallel (h : parallelExtent kind extent = some n) {f : ℕ → ℕ} {p p' : Stmt V}
    (hbody : SameBody S base (loops ++ [⟨x, min, n⟩]) body f p p') :
    SameElsewhere S base f loops (.forLoop kind x min extent body) (.forLoop kind x min extent p)
      (.forLoop kind x min extent p') := by
  rw [SameElsewhere]
  refine ⟨p, p', rfl, rfl, ?_⟩
  rw [h]
  exact hbody

end Unfold

/-- A store in a parallel loop. -/
theorem visitStore_twin (S : Simplifier) (loops : List Loop) {buf : Buffer} {indices : List Index} {value : Expr V}
    (hfix : ∀ i < base, g i = i) (hmono : StrictMono g)
    (hnext : ∀ k, g (st.next + k) = st'.next + k) (hbase : base ≤ st.next)
    (hbelow : (Stmt.store buf indices value).Below base) :
    ∃ g₁, TwinVisit (SameBody S base loops (.store buf indices value)) g g₁ st st'
      (visitBody S loops (dropBody S base loops (.store buf indices value)) st)
      (visitBody S loops (.store buf indices value) st') := by
  have hbase' : base ≤ st'.next := by
    have hzero : g st.next = st'.next := hnext 0
    exact hbase.trans ((hmono.le_apply).trans (le_of_eq hzero))
  obtain ⟨r', st₁', hr'⟩ : ∃ r' st₁', vectorizeSingleStatement S loops buf indices value st' =
    (r', st₁') := ⟨_, _, rfl⟩
  have hnone := isNone_vectorizeSingleStatement S loops st' hbelow
  rw [hr'] at hnone
  cases hfalls : fallsBack S base loops buf indices value with
  | true =>
    rw [hfalls] at hnone
    obtain rfl : r' = none := Option.isNone_iff_eq_none.mp hnone
    have hattempt := vectorizeSingleStatement_twin S loops st' st' (g := id) (fun _ _ => rfl)
      hbelow hbase' fun _ => rfl
    rw [hr'] at hattempt
    obtain ⟨ds, hds, -, -⟩ := hattempt.hoisted
    have hvisit' : visitBody S loops (.store buf indices value) st' =
        (.store buf indices value, st₁') := by
      rw [visitBody, Stmt.asStore]
      simp only [hr']
    have hdrop : dropBody S base loops (.store buf indices value) = .nop := if_pos hfalls
    rw [hvisit', hdrop]
    exact TwinVisit.skip hmono hnext hattempt.next_le ⟨ds, hds⟩ fun f =>
      (if_pos hfalls).mpr ⟨rfl, rfl⟩
  | false =>
    have hattempt := vectorizeSingleStatement_twin S loops st st' hfix hbelow hbase hnext
    obtain ⟨r, st₁, hr⟩ : ∃ r st₁, vectorizeSingleStatement S loops buf indices value st =
      (r, st₁) := ⟨_, _, rfl⟩
    rw [hr, hr'] at hattempt
    obtain rfl : r' = r.map (List.map (TileCall.renumber g)) := hattempt.calls
    rw [hfalls] at hnone
    cases r with
    | none => cases hnone
    | some calls =>
      have hfalls : ¬ fallsBack S base loops buf indices value = true := Bool.eq_false_iff.mp hfalls
      have hdrop : dropBody S base loops (.store buf indices value) = .store buf indices value :=
        if_neg hfalls
      have hvisit : visitBody S loops (.store buf indices value) st =
          (Stmt.prepend calls .nop, st₁) := by
        rw [visitBody, Stmt.asStore]
        simp only [hr]
      have hvisit' : visitBody S loops (.store buf indices value) st' =
          (Stmt.prepend (calls.map (TileCall.renumber g)) .nop, st₁') := by
        rw [visitBody, Stmt.asStore]
        simp only [hr', Option.map_some]
      rw [hdrop, hvisit, hvisit']
      refine ⟨g, fun _ _ => rfl, hmono, hattempt.next, hattempt.next_le, fun f hf => ?_, ?_⟩
      · refine (if_neg hfalls).mpr ⟨calls, rfl, ?_⟩
        rw [map_renumber_congr (hattempt.older calls rfl) hf]
      · obtain ⟨cs, hcs, hcs', holder⟩ := hattempt.hoisted
        refine ⟨cs, _, hcs, hcs', fun f hf => ?_⟩
        rw [map_renumber_congr holder hf]

theorem asStore_withoutFallbacks {s : Stmt V} (h : s.asStore = none) :
    (s.withoutFallbacks S base loops).asStore = none := by
  cases s with
  | forLoop kind x min extent body =>
    rcases hkind : parallelExtent kind extent with _ | n
    · simp only [Stmt.withoutFallbacks, hkind]
      rfl
    · rw [withoutFallbacks_parallel hkind]
      rfl
  | store buf indices value => cases h
  | _ => rfl

/-- Any other body of a parallel loop. -/
theorem TwinVisit.body {s : Stmt V} (hstore : s.asStore = none)
    (h : TwinVisit (fun f => SameElsewhere S base f loops s) g₀ g st st'
      (visitStmt S loops (s.withoutFallbacks S base loops) st) (visitStmt S loops s st')) :
    TwinVisit (SameBody S base loops s) g₀ g st st'
      (visitBody S loops (dropBody S base loops s) st) (visitBody S loops s st') := by
  have hdrop : dropBody S base loops s = s.withoutFallbacks S base loops := by
    rw [dropBody, hstore]
  rw [hdrop, visitBody, visitBody, asStore_withoutFallbacks hstore, hstore]
  refine h.around fun f hp => ?_
  rw [SameBody, hstore]
  exact hp

theorem visitStmt_twin {s : Stmt V} (hne : loops ≠ []) (hfix : ∀ i < base, g i = i)
    (hmono : StrictMono g) (hnext : ∀ k, g (st.next + k) = st'.next + k) (hbase : base ≤ st.next)
    (hbelow : s.Below base) :
    ∃ g₁, TwinVisit (fun f => SameElsewhere S base f loops s) g g₁ st st'
      (visitStmt S loops (s.withoutFallbacks S base loops) st) (visitStmt S loops s st') := by
  induction s generalizing loops g st st' with
  | seq s t ihs iht =>
    obtain ⟨g₁, hs⟩ := ihs hne hfix hmono hnext hbase hbelow.1
    have hfix₁ : ∀ i < base, g₁ i = i := fun i hi =>
      (hs.agree i (lt_of_lt_of_le hi hbase)).trans (hfix i hi)
    obtain ⟨g₂, ht⟩ := iht hne hfix₁ hs.mono hs.next (hbase.trans hs.next_le) hbelow.2
    exact ⟨g₂, hs.append ht fun f hp hq => ⟨_, _, _, _, rfl, rfl, hp, hq⟩⟩
  | forLoop kind x min extent body ih =>
    rcases hkind : parallelExtent kind extent with _ | n
    · obtain ⟨g₁, hbody⟩ := ih hne hfix hmono hnext hbase hbelow
      have hdrop : (Stmt.forLoop kind x min extent body).withoutFallbacks S base loops =
          .forLoop kind x min extent (body.withoutFallbacks S base loops) := by
        simp only [Stmt.withoutFallbacks, hkind]
      rw [hdrop, visitStmt_serial hkind, visitStmt_serial hkind]
      refine ⟨g₁, hbody.around fun f hp => ?_⟩
      rw [SameElsewhere, hkind]
      exact ⟨_, _, rfl, rfl, hp⟩
    · rw [withoutFallbacks_parallel hkind, visitStmt_inner hkind hne, visitStmt_inner hkind hne]
      rcases hstore : body.asStore with _ | ⟨buf, indices, value⟩
      · obtain ⟨g₁, hbody⟩ := ih (List.concat_ne_nil ⟨x, min, n⟩ loops) hfix hmono hnext hbase hbelow
        have hbody := hbody.body hstore
        exact ⟨g₁, hbody.around fun f hp => sameElsewhere_parallel hkind hp⟩
      · obtain rfl := asStore_eq_some hstore
        obtain ⟨g₁, hbody⟩ := visitStore_twin S (loops ++ [⟨x, min, n⟩]) hfix hmono hnext
          hbase hbelow
        exact ⟨g₁, hbody.around fun f hp => sameElsewhere_parallel hkind hp⟩
  | ifThenElse cond s t ihs iht =>
    obtain ⟨g₁, hs⟩ := ihs hne hfix hmono hnext hbase hbelow.1
    have hfix₁ : ∀ i < base, g₁ i = i := fun i hi =>
      (hs.agree i (lt_of_lt_of_le hi hbase)).trans (hfix i hi)
    obtain ⟨g₂, ht⟩ := iht hne hfix₁ hs.mono hs.next (hbase.trans hs.next_le) hbelow.2
    exact ⟨g₂, hs.append ht fun f hp hq => ⟨_, _, _, _, rfl, rfl, hp, hq⟩⟩
  | letStmt x value body ih =>
    obtain ⟨g₁, hbody⟩ := ih hne hfix hmono hnext hbase hbelow
    exact ⟨g₁, hbody.around fun f hp => ⟨_, _, rfl, rfl, hp⟩⟩
  | store buf indices value => exact ⟨g, .refl hmono hnext fun _ => ⟨rfl, rfl⟩⟩
  | eval call => exact ⟨g, .refl hmono hnext fun _ => ⟨rfl, rfl⟩⟩
  | nop => exact ⟨g, .refl hmono hnext fun _ => ⟨rfl, rfl⟩⟩

/-- The body of an outermost parallel loop. -/
theorem visitBody_twin (S : Simplifier) {s : Stmt V} (hne : loops ≠ []) (hfix : ∀ i < base, g i = i)
    (hmono : StrictMono g) (hnext : ∀ k, g (st.next + k) = st'.next + k) (hbase : base ≤ st.next)
    (hbelow : s.Below base) :
    ∃ g₁, TwinVisit (SameBody S base loops s) g g₁ st st'
      (visitBody S loops (dropBody S base loops s) st) (visitBody S loops s st') := by
  rcases hstore : s.asStore with _ | ⟨buf, indices, value⟩
  · obtain ⟨g₁, hs⟩ := visitStmt_twin (S := S) hne hfix hmono hnext hbase hbelow
    exact ⟨g₁, hs.body hstore⟩
  · obtain rfl := asStore_eq_some hstore
    exact visitStore_twin S loops hfix hmono hnext hbase hbelow

end

/-- `f(j)`, for an operator that is not decomposed. -/
def otherOf (x : Var) : Expr ℤ := .other .int32 [x] [] fun _ _ => 0

/-- `if_then_else(x > 0, f(x), 1)`. -/
def brokenSelect (x : Var) : Expr ℤ :=
  .ifThenElse (.binary .gt (.var x) (.imm 0 .int32)) (otherOf x) (.imm 1 .int32)

/-- `for i in T.Parallel(2): out[i] = if_then_else(i > 0, f(i), 1)`. -/
def brokenRow : Stmt ℤ :=
  .forLoop .parallel ⟨0, .int32⟩ (.const 0) (.const 2)
    (.store (rowAccess 0).buffer (rowAccess 0).indices (brokenSelect ⟨0, .int32⟩))

/-- `for i, j in T.Parallel(2, 2)`: a store that fails and one that does not,
`out[i, j] = if_then_else(j > 0, f(j), 1)` and `out[i, j] = j + 1`. -/
def twoStores : Stmt ℤ :=
  .seq
    (.forLoop .parallel ⟨1, .int32⟩ (.const 0) (.const 2)
      (.store squareOut.buffer squareOut.indices (brokenSelect ⟨1, .int32⟩)))
    (.forLoop .parallel ⟨1, .int32⟩ (.const 0) (.const 2)
      (.store squareOut.buffer squareOut.indices (.binary .add (.var ⟨1, .int32⟩) (.imm 1 .int32))))

end TileLangNpuir.LoopVectorize
