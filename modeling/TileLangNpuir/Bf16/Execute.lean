import TileLangNpuir.Bf16.Walk

/-!
# Running a legalized program

A run goes through the leaves of the legalized program, on the contents of whole buffers. What
the operations compute is left to a `Machine`; the casts are the ones of the pass.
-/

namespace TileLangNpuir.Bf16

variable {E V W : Type} [DecidableEq E] [Zero E]

variable (E V W) in
/-- What statements compute, on contents `V` of bf16 buffers and `W` of wider ones. The number
stands for how many operations ran before: an operation may depend on more than what it reads. -/
structure Machine : Type where
  widen : V → W
  round : W → V
  round_widen : ∀ v, round (widen v) = v
  /-- what memory holds before it is written -/
  unwritten : W
  scalar : ℕ → E → W
  compute : Stmt E → ℕ → List W → W

variable (V W) in
/-- The contents of the buffers, and of the temporaries that were written. -/
structure State : Type where
  half : ℕ → V
  wide : ℕ → W
  temp : ℕ → Option W
  clock : ℕ

/-- A temporary as the fp32 copy of a bf16 buffer. -/
structure Fp32Copy : Type where
  buffer : ℕ
  temp : ℕ
  deriving DecidableEq

namespace State

/-- No temporary is written yet. -/
def start (half : ℕ → V) (wide : ℕ → W) : State V W := ⟨half, wide, fun _ => none, 0⟩

variable (M : Machine E V W) (σ : State V W)

def load : Place E → W
  | .buffer b => if b.isBF16 then M.widen (σ.half b.id) else σ.wide b.id
  | .temp t => (σ.temp t.id).getD M.unwritten

def save (w : W) : Place E → State V W
  | .buffer b =>
    if b.isBF16 then { σ with half := Function.update σ.half b.id (M.round w) }
    else { σ with wide := Function.update σ.wide b.id w }
  | .temp t => { σ with temp := Function.update σ.temp t.id (some w) }

/-- The value of an argument that is read. -/
def read : NewArg E → W
  | .new r => σ.load M r.place
  | .kept (.region r) => σ.load M (.buffer r.buffer)
  | .kept (.other e) => M.scalar σ.clock e

def write (w : W) : NewArg E → State V W
  | .new r => σ.save M w r.place
  | .kept (.region r) => σ.save M w (.buffer r.buffer)
  | .kept (.other _) => σ

/-- One instruction of a statement. -/
def exec (stmt : Stmt E) (σ : State V W) : Instr E → State V W
  | .cast c => σ.save M (σ.load M c.src.place) c.dst.place
  | .call srcs dst =>
    let σ' := σ.write M (M.compute stmt σ.clock (srcs.map (σ.read M))) dst
    { σ' with clock := σ'.clock + 1 }

/-- One leaf. The temporaries of a block are allocated anew where it is entered. -/
def step (σ : State V W) : Event E → State V W
  | .enter temps =>
    { σ with temp := fun t => if t ∈ temps.map Temp.id then none else σ.temp t }
  | .visit s => s.emit.foldl (exec M s.stmt) σ

def run (events : List (Event E)) : State V W := events.foldl (step M) σ

/-- The copy was written, and is rounded to the contents of its buffer. -/
def Holds (c : Fp32Copy) : Prop := ∃ w, σ.temp c.temp = some w ∧ M.round w = σ.half c.buffer

end State

/-! ## What a statement reads and writes -/

def Instr.isCast : Instr E → Bool
  | .cast _ => true
  | .call .. => false

/-- The copy that a cast of a buffer fills. -/
def Instr.fills : Instr E → Option Fp32Copy
  | .cast c =>
    match c.src.place, c.dst.place with
    | .buffer b, .temp t => some ⟨b.id, t.id⟩
    | _, _ => none
  | .call .. => none

/-- The copy that is read for a bf16 buffer. -/
def Operand.readThrough (o : Operand E) (p : PreparedRegion E) : Option Fp32Copy :=
  match o, p.region.place with
  | .whole b, .temp t => if b.isBF16 then some ⟨b.id, t.id⟩ else none
  | _, _ => none

namespace Site

variable (s : Site E)

/-- The copies that the rewritten operation reads for its bf16 sources. -/
def reads : List Fp32Copy :=
  match s.stmt, s.outcome with
  | .binary _ src0 src1 _, .rewritten p0 p1 _ =>
    (src0.readThrough p0).toList ++ (p1.bind src1.readThrough).toList
  | .unary _ src _, .rewritten p0 _ _ => (src.readThrough p0).toList
  | _, _ => []

/-- The copies that the statement fills from their buffers before its operation. -/
def casts : List Fp32Copy := s.emit.filterMap Instr.fills

/-- The bf16 buffer that the statement writes. -/
def writes : Option ℕ :=
  match s.stmt.dst with
  | .whole b => if b.isBF16 then some b.id else none
  | .other _ => none

/-- The temporary that the operation writes in place of its destination. -/
def through : Option ℕ :=
  match s.outcome with
  | .rewritten _ _ pd =>
    match pd.region.place with
    | .temp t => some t.id
    | .buffer _ => none
  | .unchanged => none

/-- The state in which the operation reads. -/
def atCall (M : Machine E V W) (σ : State V W) : State V W :=
  (s.emit.takeWhile Instr.isCast).foldl (State.exec M s.stmt) σ

end Site

section

variable (M : Machine E V W) (σ : State V W) {owners : List ℕ}

/-- A cast of a bf16 buffer into a temporary of it. -/
def Cast.OfSource (owners : List ℕ) (c : Cast E) : Prop :=
  ∃ b t, c.src.place = .buffer b ∧ b.isBF16 = true ∧ c.dst.place = .temp t ∧
    owners[t.id]? = some b.id

omit [DecidableEq E] [Zero E] in
/-- Casts of sources fill copies and change nothing else. -/
theorem exec_casts (stmt : Stmt E) {cs : List (Cast E)} (hcs : ∀ c ∈ cs, c.OfSource owners) :
    ∀ σ : State V W,
      ((cs.map .cast).foldl (State.exec M stmt) σ).half = σ.half ∧
      ((cs.map .cast).foldl (State.exec M stmt) σ).clock = σ.clock ∧
      ∀ x : Fp32Copy, owners[x.temp]? = some x.buffer →
        ((cs.map .cast).foldl (State.exec M stmt) σ).temp x.temp =
          if x ∈ (cs.map .cast).filterMap Instr.fills then some (M.widen (σ.half x.buffer))
          else σ.temp x.temp := by
  induction cs with
  | nil =>
    intro σ
    exact ⟨rfl, rfl, fun x _ => by simp⟩
  | cons c cs ih =>
    intro σ
    obtain ⟨b, t, hsrc, hbf16, hdst, hown⟩ := hcs c (by simp)
    have hexec : State.exec M stmt σ (.cast c) =
        { σ with temp := Function.update σ.temp t.id (some (M.widen (σ.half b.id))) } := by
      simp [State.exec, State.load, State.save, hsrc, hdst, hbf16]
    have hfills : (Instr.cast c).fills = some ⟨b.id, t.id⟩ := by
      simp [Instr.fills, hsrc, hdst]
    obtain ⟨hhalf, hclock, htemp⟩ := ih (fun c hc => hcs c (by simp [hc]))
      (State.exec M stmt σ (.cast c))
    simp only [List.map_cons, List.foldl_cons, List.filterMap_cons, hfills, List.mem_cons]
    refine ⟨?_, ?_, fun x hx => ?_⟩
    · rw [hhalf, hexec]
    · rw [hclock, hexec]
    · rw [htemp x hx, hexec]
      by_cases hmem : x ∈ (cs.map Instr.cast).filterMap Instr.fills
      · rw [if_pos hmem, if_pos (.inr hmem)]
      · by_cases ht : x.temp = t.id
        · have hb : x.buffer = b.id := by
            rw [ht, hown] at hx
            exact (Option.some.inj hx).symm
          have hx : x = ⟨b.id, t.id⟩ := by
            rw [← ht, ← hb]
          rw [if_neg hmem, if_pos (.inl hx), ht, hb]
          exact Function.update_self ..
        · have hne : x ≠ ⟨b.id, t.id⟩ := fun hx => ht (by rw [hx])
          rw [if_neg hmem, if_neg (by simp only [hne, hmem, or_self, not_false_eq_true])]
          exact Function.update_of_ne ht ..

end

/-! ## What one statement does -/

section

variable {owners : List ℕ}

/-- Where the operation writes, and what is cast after it. -/
inductive Site.Ends (owners : List ℕ) (s : Site E) : NewArg E → List (Cast E) → Prop
  | kept : s.through = none → Ends owners s (.kept s.stmt.dst.arg) []
  | plain {r : NewRegion E} {d : Buffer E} : s.stmt.dst = .whole d → d.isBF16 = false →
      r.place = .buffer d → s.through = none → Ends owners s (.new r) []
  | castBack {r : NewRegion E} {d : Buffer E} {t : Temp E} {c : Cast E} : s.stmt.dst = .whole d →
      d.isBF16 = true → r.place = .temp t → owners[t.id]? = some d.id → c.src.place = .temp t →
      c.dst.place = .buffer d → s.through = some t.id → Ends owners s (.new r) [c]

omit [DecidableEq E] [Zero E] in
theorem PreparedRegion.SourceOf.ofSource {p : PreparedRegion E} {b : Buffer E}
    (h : p.SourceOf owners b) : ∀ c ∈ p.before, c.OfSource owners := by
  intro c hc
  obtain ⟨hbf16, hsrc, t, hdst, hown⟩ := h.before c hc
  exact ⟨b, t, hsrc, hbf16, hdst, hown⟩

theorem Site.ends_of_destinationOf {s : Site E} {p0 pd : PreparedRegion E}
    {p1 : Option (PreparedRegion E)} {d : Buffer E} (houtcome : s.outcome = .rewritten p0 p1 pd)
    (hdst : s.stmt.dst = .whole d) (hd : pd.DestinationOf owners d) :
    s.Ends owners (.new pd.region) pd.castBack := by
  have hthrough : s.through = match pd.region.place with
      | .temp t => some t.id
      | .buffer _ => none := by
    rw [Site.through, houtcome]
  rcases hd with ⟨hbf16, hplace, hback⟩ | ⟨hbf16, t, c, hplace, hown, hback, hsrc, hdst'⟩
  · rw [hback]
    exact .plain hdst hbf16 hplace (by rw [hthrough, hplace])
  · rw [hback]
    exact .castBack hdst hbf16 hplace hown hsrc hdst' (by rw [hthrough, hplace])

/-- A statement casts sources, runs its operation, and casts the destination back. -/
theorem Site.emit_eq {s : Site E} (hown : s.outcome.Owned owners s.stmt) :
    ∃ (cs : List (Cast E)) (srcs : List (NewArg E)) (dst : NewArg E) (back : List (Cast E)),
      s.emit = cs.map .cast ++ .call srcs dst :: back.map .cast ∧
      (∀ c ∈ cs, c.OfSource owners) ∧ s.Ends owners dst back := by
  have hnone : ∀ c ∈ ([] : List (Cast E)), c.OfSource owners := fun _ hc => nomatch hc
  rcases s with ⟨m, stmt⟩
  cases stmt with
  | other name srcs dst => exact ⟨[], _, _, [], rfl, hnone, .kept rfl⟩
  | binary op src0 src1 dst =>
    cases houtcome : (Site.mk m (.binary op src0 src1 dst)).outcome with
    | unchanged =>
      refine ⟨[], [.kept src0.arg, .kept src1.arg], .kept dst.arg, [], ?_, hnone, .kept ?_⟩
      · simp [Site.emit, houtcome, Outcome.instrs]
      · rw [Site.through, houtcome]
    | rewritten p0 p1 pd =>
      rw [houtcome] at hown
      match src0, dst, houtcome, hown with
      | .whole a, .whole d, houtcome, ⟨h0, h1, hd⟩ =>
        have hends := Site.ends_of_destinationOf houtcome rfl hd
        cases p1 with
        | none =>
          refine ⟨p0.before, [.new p0.region, .kept src1.arg], _, _, ?_, h0.ofSource, hends⟩
          simp [Site.emit, houtcome, Outcome.instrs]
        | some p1 =>
          obtain ⟨b, -, hsource⟩ := h1 p1 rfl
          refine ⟨p0.before ++ p1.before, [.new p0.region, .new p1.region], _, _, ?_, ?_, hends⟩
          · simp [Site.emit, houtcome, Outcome.instrs]
          · intro c hc
            rcases List.mem_append.mp hc with hc | hc
            · exact h0.ofSource c hc
            · exact hsource.ofSource c hc
  | unary op src dst =>
    cases houtcome : (Site.mk m (.unary op src dst)).outcome with
    | unchanged =>
      refine ⟨[], [.kept src.arg], .kept dst.arg, [], ?_, hnone, .kept ?_⟩
      · simp [Site.emit, houtcome, Outcome.instrs]
      · rw [Site.through, houtcome]
    | rewritten p0 p1 pd =>
      rw [houtcome] at hown
      match src, dst, houtcome, hown with
      | .whole a, .whole d, houtcome, ⟨h0, h1, hd⟩ =>
        subst h1
        refine ⟨p0.before, [.new p0.region], _, _, ?_, h0.ofSource,
          Site.ends_of_destinationOf houtcome rfl hd⟩
        simp [Site.emit, houtcome, Outcome.instrs]

theorem Site.Ends.owner {s : Site E} {dst : NewArg E} {back : List (Cast E)}
    (h : s.Ends owners dst back) {t : ℕ} (ht : s.through = some t) :
    ∃ b, s.writes = some b ∧ owners[t]? = some b := by
  cases h with
  | kept hthrough =>
    rw [hthrough] at ht
    cases ht
  | plain _ _ _ hthrough =>
    rw [hthrough] at ht
    cases ht
  | @castBack _ d t' _ hdst hbf16 _ hown _ _ hthrough =>
    rw [hthrough] at ht
    obtain rfl := Option.some.inj ht
    exact ⟨d.id, by simp [Site.writes, hdst, hbf16], hown⟩

theorem Site.Ends.fills {s : Site E} {dst : NewArg E} {back : List (Cast E)}
    (h : s.Ends owners dst back) : (back.map Instr.cast).filterMap Instr.fills = [] := by
  cases h with
  | kept => rfl
  | plain => rfl
  | castBack _ _ _ _ hsrc => simp [Instr.fills, hsrc]

/-- The operation writes its destination, the buffer or its temporary, and the buffer then has
the rounded result. -/
theorem Site.Ends.exec {s : Site E} {dst : NewArg E} {back : List (Cast E)}
    (h : s.Ends owners dst back) (M : Machine E V W) (σ : State V W) (srcs : List (NewArg E)) :
    let w := M.compute s.stmt σ.clock (srcs.map (σ.read M))
    let σ' := (Instr.call srcs dst :: back.map .cast).foldl (State.exec M s.stmt) σ
    σ'.clock = σ.clock + 1 ∧
    (∀ b, σ'.half b = if s.writes = some b then M.round w else σ.half b) ∧
    (∀ t, σ'.temp t = if s.through = some t then some w else σ.temp t) := by
  intro w σ'
  cases h with
  | kept hthrough =>
    have hσ' : σ' = { σ.write M w (.kept s.stmt.dst.arg) with
        clock := (σ.write M w (.kept s.stmt.dst.arg)).clock + 1 } := rfl
    cases hdst : s.stmt.dst with
    | other e =>
      rw [hdst] at hσ'
      have hwrites : s.writes = none := by simp [Site.writes, hdst]
      simp [hσ', State.write, hwrites, hthrough]
    | whole b =>
      rw [hdst] at hσ'
      by_cases hbf16 : b.isBF16 = true
      · have hwrites : s.writes = some b.id := by simp [Site.writes, hdst, hbf16]
        refine ⟨?_, fun b' => ?_, fun t => ?_⟩
        · simp [hσ', State.write, State.save, Buffer.whole, hbf16]
        · simp [hσ', State.write, State.save, Buffer.whole, hbf16, hwrites, Function.update_apply,
            eq_comm]
        · simp [hσ', State.write, State.save, Buffer.whole, hbf16, hthrough]
      · have hwrites : s.writes = none := by simp [Site.writes, hdst, hbf16]
        simp [hσ', State.write, State.save, Buffer.whole, hbf16, hwrites, hthrough]
  | @plain r d hdst hbf16 hplace hthrough =>
    have hσ' : σ' = { σ.save M w r.place with clock := (σ.save M w r.place).clock + 1 } := rfl
    have hwrites : s.writes = none := by simp [Site.writes, hdst, hbf16]
    simp [hσ', hplace, State.save, hbf16, hwrites, hthrough]
  | @castBack r d t c hdst hbf16 hplace _ hsrc hdst' hthrough =>
    have hσ' : σ' = State.exec M s.stmt
        { σ.save M w r.place with clock := (σ.save M w r.place).clock + 1 } (.cast c) := rfl
    have hwrites : s.writes = some d.id := by simp [Site.writes, hdst, hbf16]
    refine ⟨?_, fun b' => ?_, fun t' => ?_⟩
    · simp [hσ', State.exec, State.load, State.save, hplace, hsrc, hdst', hbf16]
    · simp [hσ', State.exec, State.load, State.save, hplace, hsrc, hdst', hbf16, hwrites,
        Function.update_apply, eq_comm]
    · simp [hσ', State.exec, State.load, State.save, hplace, hsrc, hdst', hbf16, hthrough,
        Function.update_apply, eq_comm]

theorem Site.atCall_of_emit (s : Site E) (M : Machine E V W) (σ : State V W) {cs : List (Cast E)}
    {srcs : List (NewArg E)} {dst : NewArg E} {back : List (Cast E)}
    (hemit : s.emit = cs.map .cast ++ .call srcs dst :: back.map .cast) :
    s.atCall M σ = (cs.map .cast).foldl (State.exec M s.stmt) σ := by
  rw [Site.atCall, hemit, List.takeWhile_append_of_pos (by simp [Instr.isCast])]
  simp [Instr.isCast]

variable {s : Site E} (hown : s.outcome.Owned owners s.stmt)

include hown

theorem Site.through_owner {t : ℕ} (ht : s.through = some t) :
    ∃ b, s.writes = some b ∧ owners[t]? = some b := by
  obtain ⟨cs, srcs, dst, back, -, -, hends⟩ := s.emit_eq hown
  exact hends.owner ht

/-- Only the buffer of a copy is written through it. -/
theorem Site.through_ne {x : Fp32Copy} (hx : owners[x.temp]? = some x.buffer)
    (hwrites : s.writes ≠ some x.buffer) : s.through ≠ some x.temp := by
  intro hthrough
  obtain ⟨b, hb, hb'⟩ := s.through_owner hown hthrough
  rw [hx] at hb'
  exact hwrites (by rw [hb, hb'])

theorem Site.reads_owner {x : Fp32Copy} (hx : x ∈ s.reads) : owners[x.temp]? = some x.buffer := by
  have hread : ∀ {b : Buffer E} {p : PreparedRegion E}, p.SourceOf owners b →
      (Operand.whole b).readThrough p = some x → owners[x.temp]? = some x.buffer := by
    intro b p hp hread
    unfold Operand.readThrough at hread
    split at hread
    · rename_i hb hplace
      obtain rfl := Operand.whole.inj hb
      split at hread
      · obtain rfl := Option.some.inj hread
        exact hp.place _ hplace
      · cases hread
    · cases hread
  rcases s with ⟨m, stmt⟩
  unfold Site.reads at hx
  cases houtcome : (Site.mk m stmt).outcome with
  | unchanged =>
    rw [houtcome] at hx
    cases stmt <;> cases hx
  | rewritten p0 p1 pd =>
    rw [houtcome] at hx hown
    match stmt, hx, hown with
    | .binary _ (.whole a) src1 (.whole d), hx, ⟨h0, h1, _⟩ =>
      rcases List.mem_append.mp hx with hx | hx
      · exact hread h0 (Option.mem_toList.mp hx)
      · obtain ⟨p, hp, hx⟩ := Option.bind_eq_some_iff.mp (Option.mem_toList.mp hx)
        obtain ⟨b, rfl, hsource⟩ := h1 p hp
        exact hread hsource hx
    | .unary _ (.whole a) (.whole d), hx, ⟨h0, _, _⟩ =>
      exact hread h0 (Option.mem_toList.mp hx)

variable (M : Machine E V W) (σ : State V W)

/-- The state in which the operation reads: the statement's own casts were run. -/
theorem Site.atCall_eq : (s.atCall M σ).half = σ.half ∧
    ∀ x : Fp32Copy, owners[x.temp]? = some x.buffer → (s.atCall M σ).temp x.temp =
      if x ∈ s.casts then some (M.widen (σ.half x.buffer)) else σ.temp x.temp := by
  obtain ⟨cs, srcs, dst, back, hemit, hcs, hends⟩ := s.emit_eq hown
  have hatCall := s.atCall_of_emit M σ hemit
  have hcasts : s.casts = (cs.map Instr.cast).filterMap Instr.fills := by
    rw [Site.casts, hemit, List.filterMap_append, List.filterMap_cons_none rfl, hends.fills,
      List.append_nil]
  obtain ⟨hhalf, -, htemp⟩ := exec_casts M s.stmt hcs σ
  rw [hatCall, hcasts]
  exact ⟨hhalf, htemp⟩

/-- What a statement does to the contents of buffers and temporaries. -/
theorem Site.step_eq : ∃ xs, let w := M.compute s.stmt σ.clock xs
    let σ' := σ.step M (.visit s)
    σ'.clock = σ.clock + 1 ∧
    (∀ b, σ'.half b = if s.writes = some b then M.round w else σ.half b) ∧
    (∀ t, σ'.temp t = if s.through = some t then some w else (s.atCall M σ).temp t) := by
  obtain ⟨cs, srcs, dst, back, hemit, hcs, hends⟩ := s.emit_eq hown
  have hatCall := s.atCall_of_emit M σ hemit
  have hstep : σ.step M (.visit s) =
      (Instr.call srcs dst :: back.map .cast).foldl (State.exec M s.stmt) (s.atCall M σ) := by
    rw [hatCall, ← List.foldl_append, ← hemit]
    rfl
  obtain ⟨hhalf, hclock, -⟩ := exec_casts M s.stmt hcs σ
  rw [← hatCall] at hhalf hclock
  have h := hends.exec M (s.atCall M σ) srcs
  rw [← hstep, hhalf, hclock] at h
  exact ⟨_, h⟩

end

end TileLangNpuir.Bf16
