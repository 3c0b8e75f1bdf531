import TileLangNpuir.GridText.Replacement
import Mathlib.Tactic.IntervalCases

/-!
# When the grid is right

Reading the text goes on as before, with the value in the place of the name: a minus sign
in front of it binds tighter than any operator around it. The other identifiers have to
come through unchanged, and then have no value.
-/

namespace TileLangNpuir.GridText

/-! ## Identifiers -/

def pendingIdents : Option (Expr × Op) → List Text
  | none => []
  | some (a, _) => a.idents

def Level.idents (l : Level) : List Text := pendingIdents l.sum ++ pendingIdents l.prod

def Mode.idents : Mode → List Text
  | .operand => []
  | .operator x => x.idents
  | .slash x => x.idents

@[simp]
theorem pendingIdents_none : pendingIdents none = [] := rfl

@[simp]
theorem pendingIdents_some (a : Expr) (op : Op) : pendingIdents (some (a, op)) = a.idents := rfl

@[simp]
theorem Mode.idents_operand : Mode.operand.idents = [] := rfl

@[simp]
theorem Mode.idents_operator (x : Expr) : (Mode.operator x).idents = x.idents := rfl

@[simp]
theorem Mode.idents_slash (x : Expr) : (Mode.slash x).idents = x.idents := rfl

/-- The identifiers read so far. -/
def State.idents (st : State) : List Text :=
  st.outer.flatMap Level.idents ++ (st.level.idents ++ st.mode.idents)

theorem idents_combine (o : Option (Expr × Op)) (x : Expr) :
    (combine o x).idents = pendingIdents o ++ x.idents := by
  cases o with
  | none => rfl
  | some p => rfl

theorem idents_negate (n : ℕ) (x : Expr) : (negate n x).idents = x.idents := by
  induction n generalizing x with
  | zero => rfl
  | succ n ih => exact ih (.neg x)

theorem Level.idents_close (l : Level) (x : Expr) : (l.close x).idents = l.idents ++ x.idents := by
  rw [Level.close, idents_combine, idents_combine, Level.idents, List.append_assoc]

theorem State.idents_operand {st : State} (h : st.mode = .operand) (x : Expr) :
    (st.operand x).idents = st.idents ++ x.idents := by
  simp [State.idents, State.operand, idents_negate, Level.idents, h]

theorem State.idents_addOp {st : State} {x : Expr} (h : st.mode.idents = x.idents) (op : Op) :
    (st.addOp x op).idents = st.idents := by
  simp [State.idents, State.addOp, Level.idents, Level.idents_close, h]

theorem State.idents_mulOp {st : State} {x : Expr} (h : st.mode.idents = x.idents) (op : Op) :
    (st.mulOp x op).idents = st.idents := by
  simp [State.idents, State.mulOp, Level.idents, idents_combine, h]

theorem State.mem_idents_pop {st st' : State} {x : Expr} (h : st.pop x = some st')
    (hmode : st.mode.idents = x.idents) {w : Text} (hw : w ∈ st.idents) : w ∈ st'.idents := by
  rw [State.pop] at h
  split at h
  · cases h
  · rename_i l outer houter
    obtain rfl := Option.some.inj h
    rw [State.idents_operand rfl, Level.idents_close]
    simp only [State.idents, houter, hmode, Mode.idents_operand, List.flatMap_cons, List.mem_append,
      List.append_nil] at hw ⊢
    rcases hw with (hw | hw) | hw | hw
    · exact .inl (.inr hw)
    · exact .inl (.inl hw)
    · exact .inr (.inl hw)
    · exact .inr (.inr hw)

theorem State.mem_idents_symbol {st st' : State} {c : Char} (h : st.symbol c = some st') {w : Text}
    (hw : w ∈ st.idents) : w ∈ st'.idents := by
  rw [State.symbol] at h
  split at h
  · rename_i hmode
    rw [State.beforeOperand] at h
    split_ifs at h
    · obtain rfl := Option.some.inj h
      exact hw
    · obtain rfl := Option.some.inj h
      exact hw
    · obtain rfl := Option.some.inj h
      rw [State.idents, hmode, Mode.idents_operand, List.append_nil] at hw
      rcases List.mem_append.mp hw with hw | hw
      · exact List.mem_append_left _ (List.mem_append_right _ hw)
      · exact List.mem_append_left _ (List.mem_append_left _ hw)
  · rename_i x hmode
    have hx : st.mode.idents = x.idents := by rw [hmode]; rfl
    rw [State.behindOperand] at h
    split_ifs at h
    · obtain rfl := Option.some.inj h
      exact hw
    · obtain rfl := Option.some.inj h
      rwa [State.idents_addOp hx]
    · obtain rfl := Option.some.inj h
      rwa [State.idents_addOp hx]
    · obtain rfl := Option.some.inj h
      rwa [State.idents_mulOp hx]
    · obtain rfl := Option.some.inj h
      simpa [State.idents, hmode] using hw
    · exact State.mem_idents_pop h hx hw
  · rename_i x hmode
    have hx : st.mode.idents = x.idents := by rw [hmode]; rfl
    split at h
    · obtain rfl := Option.some.inj h
      rwa [State.idents_mulOp hx]
    · cases h

theorem atom_of_isIdentifier {reserved : Text → Bool} {w : Text} (hw : isIdentifier w = true)
    {x : Expr} (h : atom reserved w = some x) : x = .ident w := by
  rw [atom] at h
  split at h
  · rename_i hnumber
    obtain ⟨-, c, s, rfl, hc⟩ := isIdentifier_iff.mp hw
    obtain ⟨-, hdigits, -⟩ := of_decide_eq_true hnumber
    rw [List.all_eq_true.mp hdigits c List.mem_cons_self] at hc
    cases hc
  · split at h
    · exact (Option.some.inj h).symm
    · cases h

theorem State.step_word {reserved : Text → Bool} {st st' : State} {w : Text}
    (h : st.step reserved (.word w) = some st') :
    st.mode = .operand ∧ ∃ x, atom reserved w = some x ∧ st' = st.operand x := by
  rw [State.step] at h
  split at h
  · rename_i hmode
    obtain ⟨x, hx, rfl⟩ := Option.map_eq_some_iff.mp h
    exact ⟨hmode, x, hx, rfl⟩
  · cases h

theorem State.mem_idents_step {reserved : Text → Bool} {st st' : State} {p : Piece}
    (h : st.step reserved p = some st') {w : Text}
    (hw : w ∈ st.idents ∨ (p = .word w ∧ isIdentifier w = true)) : w ∈ st'.idents := by
  cases p with
  | sym c =>
    rcases hw with hw | ⟨hp, -⟩
    · exact State.mem_idents_symbol h hw
    · cases hp
  | word w' =>
    obtain ⟨hmode, x, hx, rfl⟩ := State.step_word h
    rw [State.idents_operand hmode]
    rcases hw with hw | ⟨hp, hw⟩
    · exact List.mem_append_left _ hw
    · obtain rfl := Piece.word.inj hp
      rw [atom_of_isIdentifier hw hx]
      exact List.mem_append_right _ List.mem_cons_self

theorem State.mem_idents_run {reserved : Text → Bool} :
    ∀ {ps : List Piece} {st st' : State}, st.run reserved ps = some st' → ∀ {w : Text},
      w ∈ st.idents ∨ (.word w ∈ ps ∧ isIdentifier w = true) → w ∈ st'.idents := by
  intro ps
  induction ps with
  | nil =>
    intro st st' h w hw
    obtain rfl := Option.some.inj h
    rcases hw with hw | ⟨hp, -⟩
    · exact hw
    · cases hp
  | cons p ps ih =>
    intro st st' h w hw
    obtain ⟨st₁, hstep, hrun⟩ := Option.bind_eq_some_iff.mp h
    rcases hw with hw | ⟨hp, hw⟩
    · exact ih hrun (.inl (State.mem_idents_step hstep (.inl hw)))
    · rcases List.mem_cons.mp hp with rfl | hp
      · exact ih hrun (.inl (State.mem_idents_step hstep (.inr ⟨rfl, hw⟩)))
      · exact ih hrun (.inr ⟨hp, hw⟩)

theorem State.finish_spec {st : State} {e : Expr} (h : st.finish = some e) :
    ∃ x, st.outer = [] ∧ st.mode = .operator x ∧ e = st.level.close x := by
  rw [State.finish] at h
  split at h
  · rename_i x houter hmode
    exact ⟨x, houter, hmode, (Option.some.inj h).symm⟩
  · cases h

/-- The identifiers of a text are those of its expression. -/
theorem mem_idents_read {reserved : Text → Bool} {s : Text} {e : Expr} (h : read reserved s = some e)
    {w : Text} (hp : .word w ∈ pieces s) (hw : isIdentifier w = true) : w ∈ e.idents := by
  obtain ⟨st, hrun, hfinish⟩ := Option.bind_eq_some_iff.mp h
  obtain ⟨x, houter, hmode, rfl⟩ := State.finish_spec hfinish
  have hmem := State.mem_idents_run hrun (.inr ⟨hp, hw⟩)
  rwa [State.idents, houter, hmode, List.flatMap_nil, List.nil_append, Mode.idents_operator,
    ← Level.idents_close] at hmem

/-! ## Values in the place of names -/

def valueExpr : ℤ → Expr
  | .ofNat n => .const n
  | .negSucc n => .neg (.const (n + 1))

/-- The values in the place of the names. -/
def Expr.subst (vals : DynamicVal) : Expr → Expr
  | .const n => .const n
  | .ident w =>
    match vals.get? w with
    | some v => valueExpr v
    | none => .ident w
  | .neg a => .neg (a.subst vals)
  | .bin op a b => .bin op (a.subst vals) (b.subst vals)

theorem eval_valueExpr (val : Text → Option ℤ) (v : ℤ) : (valueExpr v).eval val = some v := by
  cases v with
  | ofNat n => rfl
  | negSucc n => rfl

theorem Expr.eval_subst (vals : DynamicVal) (e : Expr) :
    (e.subst vals).eval vals.get? = e.eval vals.get? := by
  induction e with
  | const n => rfl
  | ident w =>
    rw [Expr.subst, Expr.eval]
    split
    · rename_i v hv
      rw [hv, eval_valueExpr]
    · rfl
  | neg a ih => rw [Expr.subst, Expr.eval, Expr.eval, ih]
  | bin op a b iha ihb => rw [Expr.subst, Expr.eval, Expr.eval, iha, ihb]

section

variable (vals : DynamicVal)

def substPending (o : Option (Expr × Op)) : Option (Expr × Op) :=
  o.map fun p => (p.1.subst vals, p.2)

def Level.subst (l : Level) : Level := ⟨substPending vals l.sum, substPending vals l.prod, l.signs⟩

def Mode.subst : Mode → Mode
  | .operand => .operand
  | .operator x => .operator (x.subst vals)
  | .slash x => .slash (x.subst vals)

def State.subst (st : State) : State :=
  ⟨st.outer.map (Level.subst vals), st.level.subst vals, st.mode.subst vals⟩

theorem subst_combine (o : Option (Expr × Op)) (x : Expr) :
    (combine o x).subst vals = combine (substPending vals o) (x.subst vals) := by
  cases o with
  | none => rfl
  | some p => rfl

theorem subst_negate (n : ℕ) (x : Expr) :
    (negate n x).subst vals = negate n (x.subst vals) := by
  induction n generalizing x with
  | zero => rfl
  | succ n ih => exact ih (.neg x)

theorem Level.subst_close (l : Level) (x : Expr) :
    (l.close x).subst vals = (l.subst vals).close (x.subst vals) := by
  rw [Level.close, subst_combine, subst_combine]
  rfl

theorem State.subst_operand (st : State) (x : Expr) :
    (st.operand x).subst vals = (st.subst vals).operand (x.subst vals) := by
  simp [State.subst, State.operand, Mode.subst, subst_negate, Level.subst]

theorem State.subst_addOp (st : State) (x : Expr) (op : Op) :
    (st.addOp x op).subst vals = (st.subst vals).addOp (x.subst vals) op := by
  simp only [State.addOp, State.subst, ← Level.subst_close]
  rfl

theorem State.subst_mulOp (st : State) (x : Expr) (op : Op) :
    (st.mulOp x op).subst vals = (st.subst vals).mulOp (x.subst vals) op := by
  have hprod := subst_combine vals st.level.prod x
  simp only [State.mulOp, State.subst, Level.subst, ← hprod]
  rfl

theorem State.subst_pop {st st' : State} {x : Expr} (h : st.pop x = some st') :
    (st.subst vals).pop (x.subst vals) = some (st'.subst vals) := by
  rw [State.pop] at h
  split at h
  · cases h
  · rename_i l outer houter
    obtain rfl := Option.some.inj h
    rw [State.subst_operand, Level.subst_close, State.pop, State.subst, houter]
    rfl

theorem State.subst_symbol {st st' : State} {c : Char} (h : st.symbol c = some st') :
    (st.subst vals).symbol c = some (st'.subst vals) := by
  rw [State.symbol] at h ⊢
  split at h
  · rename_i hmode
    have hmode' : (st.subst vals).mode = .operand := by rw [State.subst, hmode]; rfl
    rw [hmode']
    simp only [State.beforeOperand] at h ⊢
    split_ifs at h ⊢
    · obtain rfl := Option.some.inj h
      rfl
    · obtain rfl := Option.some.inj h
      rfl
    · obtain rfl := Option.some.inj h
      rfl
  · rename_i x hmode
    have hmode' : (st.subst vals).mode = .operator (x.subst vals) := by rw [State.subst, hmode]; rfl
    rw [hmode']
    simp only [State.behindOperand] at h ⊢
    split_ifs at h ⊢
    · obtain rfl := Option.some.inj h
      rfl
    · obtain rfl := Option.some.inj h
      rw [State.subst_addOp]
    · obtain rfl := Option.some.inj h
      rw [State.subst_addOp]
    · obtain rfl := Option.some.inj h
      rw [State.subst_mulOp]
    · obtain rfl := Option.some.inj h
      rfl
    · exact State.subst_pop vals h
  · rename_i x hmode
    have hmode' : (st.subst vals).mode = .slash (x.subst vals) := by rw [State.subst, hmode]; rfl
    rw [hmode']
    split at h
    · rename_i hc
      obtain rfl := Option.some.inj h
      rw [State.subst_mulOp]
      exact if_pos hc
    · cases h

theorem State.subst_finish {st : State} {e : Expr} (h : st.finish = some e) :
    (st.subst vals).finish = some (e.subst vals) := by
  obtain ⟨x, houter, hmode, rfl⟩ := State.finish_spec h
  rw [Level.subst_close, State.finish, State.subst, houter, hmode]
  rfl

end

/-! ## Reading what was replaced -/

theorem run_append (reserved : Text → Bool) (ps qs : List Piece) (st : State) :
    st.run reserved (ps ++ qs) = (st.run reserved ps).bind fun st' => st'.run reserved qs := by
  induction ps generalizing st with
  | nil => rfl
  | cons p ps ih =>
    rw [List.cons_append, State.run, State.run, Option.bind_assoc]
    congr
    funext st'
    exact ih st'

theorem eq_zero_of_head_toDigits {n : ℕ} (h : (Nat.toDigits 10 n).head? = some '0') : n = 0 := by
  induction n using Nat.strongRecOn with
  | ind n ih =>
    by_cases hn : n < 10
    · rw [Nat.toDigits_of_lt_base hn, List.head?_cons] at h
      have hdigit := Option.some.inj h
      interval_cases n <;> first | rfl | cases hdigit
    · rw [Nat.toDigits_of_base_le (by decide) (by omega), List.head?_append] at h
      have hhead : (Nat.toDigits 10 (n / 10)).head? = some '0' := by
        cases hhead : (Nat.toDigits 10 (n / 10)).head? with
        | none => exact absurd (List.head?_eq_none_iff.mp hhead) Nat.toDigits_ne_nil
        | some c => rwa [hhead] at h
      have := ih (n / 10) (by omega) hhead
      omega

/-- A number is written the way it is read. -/
theorem atom_toDigits (reserved : Text → Bool) (n : ℕ) :
    atom reserved (Nat.toDigits 10 n) = some (.const n) := by
  have hnumber : isNumber (Nat.toDigits 10 n) = true := by
    refine decide_eq_true ⟨Nat.toDigits_ne_nil, ?_, fun hzero => ?_⟩
    · exact List.all_eq_true.mpr fun c hc => Nat.isDigit_of_mem_toDigits (by decide) (by decide) hc
    · obtain rfl := eq_zero_of_head_toDigits hzero
      rfl
  rw [atom, if_pos hnumber, Nat.ofDigitChars_ten_toDigits]

theorem all_isWordChar_of_digits {w : Text} (h : ∀ c ∈ w, c.isDigit = true) :
    w.all isWordChar = true := by
  refine List.all_eq_true.mpr fun c hc => ?_
  rw [isWordChar, Char.isAlphanum, h c hc, Bool.or_true, Bool.true_or]

theorem pieces_toDigits (n : ℕ) : pieces (Nat.toDigits 10 n) = [.word (Nat.toDigits 10 n)] :=
  pieces_word (all_isWordChar_of_digits fun _ hc =>
    Nat.isDigit_of_mem_toDigits (by decide) (by decide) hc) Nat.toDigits_ne_nil

theorem run_word {reserved : Text → Bool} {st : State} {w : Text} {x : Expr}
    (hmode : st.mode = .operand) (hx : atom reserved w = some x) :
    st.run reserved [.word w] = some (st.operand x) := by
  rw [State.run, State.step, hmode]
  simp only [hx, Option.map_some, Option.bind_some, State.run]

/-- A value is read as one operand, with its sign. -/
theorem run_intText (reserved : Text → Bool) {st : State} (hmode : st.mode = .operand) (v : ℤ) :
    st.run reserved (pieces (intText v)) = some (st.operand (valueExpr v)) := by
  cases v with
  | ofNat n =>
    rw [intText, pieces_toDigits]
    exact run_word hmode (atom_toDigits reserved n)
  | negSucc n =>
    have hpieces : pieces (intText (.negSucc n)) = [.sym '-'] ++ [.word (Nat.toDigits 10 (n + 1))] := by
      rw [intText, ← pieces_toDigits]
      exact pieces_append_cons (c := '-') (by decide) [] _
    let signed : State := { st with level := { st.level with signs := st.level.signs + 1 } }
    have hsign : st.run reserved [.sym '-'] = some signed := by
      rw [State.run, State.step, State.symbol, hmode]
      rfl
    rw [hpieces, run_append, hsign, Option.bind_some]
    exact run_word hmode (atom_toDigits reserved (n + 1))

/-- A word that is no symbolic shape variable comes through. -/
def Untouched (vals : DynamicVal) (w : Text) : Prop :=
  w ∉ keywords ∧ ∀ p ∈ vals.entries, ¬ p.1 <:+: w

variable {vals : DynamicVal}

theorem run_replaced_word {st st' : State} {w : Text}
    (hw : isIdentifier w = true → vals.get? w = none → Untouched vals w)
    (h : st.step (fun _ => false) (.word w) = some st') :
    (st.subst vals).run isKeyword (pieces (replaceByLongestKey w vals)) = some (st'.subst vals) := by
  obtain ⟨hmode, x, hx, rfl⟩ := State.step_word h
  have hmode' : (st.subst vals).mode = .operand := by rw [State.subst, hmode]; rfl
  rw [State.subst_operand]
  rw [atom] at hx
  split at hx
  · -- a number
    rename_i hnumber
    obtain rfl := Option.some.inj hx
    obtain ⟨hne, hdigits, -⟩ := of_decide_eq_true hnumber
    rw [List.all_eq_true] at hdigits
    have hsame : replaceByLongestKey w vals = w := replaceByLongestKey_of_not_occurs fun p hp =>
      not_infix_of_digits (vals.identifiers p hp) fun c hc => .inl (hdigits c hc)
    rw [hsame, pieces_word (all_isWordChar_of_digits hdigits) hne]
    refine run_word hmode' ?_
    rw [atom, if_pos hnumber]
    rfl
  · rename_i hnumber
    split at hx
    · rename_i hident
      obtain rfl := Option.some.inj hx
      cases hget : vals.get? w with
      | some v =>
        rw [replaceByLongestKey_of_mem (DynamicVal.get?_eq_some_iff.mp hget), Expr.subst, hget]
        exact run_intText isKeyword hmode' v
      | none =>
        obtain ⟨hkeyword, hoccurs⟩ := hw hident.1 hget
        obtain ⟨hall, c, s, hcons, -⟩ := isIdentifier_iff.mp hident.1
        have hne : w ≠ [] := by
          rw [hcons]
          exact List.cons_ne_nil c s
        rw [replaceByLongestKey_of_not_occurs hoccurs, pieces_word hall hne, Expr.subst, hget]
        refine run_word hmode' ?_
        rw [atom, if_neg hnumber, if_pos ⟨hident.1, decide_eq_false hkeyword⟩]
    · cases hx

theorem run_replaced : ∀ {ps : List Piece} {st st' : State},
    (∀ w, .word w ∈ ps → isIdentifier w = true → vals.get? w = none → Untouched vals w) →
      st.run (fun _ => false) ps = some st' →
        (st.subst vals).run isKeyword
          (ps.flatMap (substPiece fun s => replaceByLongestKey s vals)) = some (st'.subst vals) := by
  intro ps
  induction ps with
  | nil =>
    intro st st' _ h
    obtain rfl := Option.some.inj h
    rfl
  | cons p ps ih =>
    intro st st' hps h
    obtain ⟨st₁, hstep, hrun⟩ := Option.bind_eq_some_iff.mp h
    have hrest := ih (fun w hw => hps w (List.mem_cons_of_mem _ hw)) hrun
    rw [List.flatMap_cons, run_append]
    cases p with
    | sym c =>
      have hsym : (st.subst vals).run isKeyword [.sym c] = some (st₁.subst vals) := by
        rw [State.run, State.step, State.subst_symbol vals hstep]
        rfl
      rw [substPiece, hsym]
      exact hrest
    | word w =>
      rw [substPiece, run_replaced_word (hps w List.mem_cons_self) hstep]
      exact hrest

/-- Python reads the replaced text as the expression with the values in it. -/
theorem readPython_replaceByLongestKey {gridfunc : Text} {e : Expr}
    (hread : readExtent gridfunc = some e)
    (h : ∀ w ∈ e.idents, vals.get? w = none → Untouched vals w) :
    readPython (replaceByLongestKey gridfunc vals) = some (e.subst vals) := by
  obtain ⟨st, hrun, hfinish⟩ := Option.bind_eq_some_iff.mp hread
  have hpieces := (local_replaceByLongestKey vals).pieces gridfunc
  have hrun' := run_replaced
    (fun w hp hw => h w (mem_idents_read hread hp hw)) hrun
  refine Option.bind_eq_some_iff.mpr ⟨st.subst vals, ?_, State.subst_finish vals hfinish⟩
  rw [hpieces]
  exact hrun'

/-- One name inside another, and a negative value. -/
def nestedNames : DynamicVal where
  entries := [("M".toList, 100), ("MB".toList, -3)]
  nodup := by decide
  identifiers := by decide

/-- A single symbolic shape variable `M`. -/
def onlyM : DynamicVal where
  entries := [("M".toList, 5)]
  nodup := by decide
  identifiers := by decide

end TileLangNpuir.GridText
