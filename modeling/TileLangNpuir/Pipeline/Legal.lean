import TileLangNpuir.Pipeline.Plan
import TileLangNpuir.Lib.Numbering

/-!
# Legal schedules

The main loop numbers the statements of the last stage in their order, each followed
by the copies it is the last to use. The statements left over are pushed in front one
by one, and each push renumbers from its own number on instead of from the beginning:
that gives every statement a number of its own only when all statements left over, but
for the last, come before all others.
-/

namespace TileLangNpuir.Pipeline

namespace Body

variable (K : Body) (numStages : ℤ)

/-- The main loop gives the statement an order: it is of the last stage, or a copy last
used by one that is. -/
def isPlaced (p : ℕ) : Bool :=
  !K.isFirstStage p || (K.copyStage p &&
    (List.range K.size).any fun m => !K.isFirstStage m && K.lastUseStage p = m)

/-- The copies that a statement is the last to use. -/
def lastUsedBy (m : ℕ) : List ℕ :=
  (List.range K.size).filter fun p => K.copyStage p && K.lastUseStage p = m

/-- What the main loop assigns, in order. -/
def assignments : List (ℕ × ℤ) :=
  (List.range K.size).flatMap fun m =>
    if K.isFirstStage m then [] else (m, numStages) :: (K.lastUsedBy m).map fun p => (p, 0)

/-- The statements with an order after the main loop. -/
def placed : List ℕ :=
  (List.range K.size).flatMap fun m => if K.isFirstStage m then [] else m :: K.lastUsedBy m

end Body

/-! ## The main loop -/

section MainLoop

/-- A list of assignments. -/
def Slots.assignAll (s : Slots) (l : List (ℕ × ℤ)) : Slots :=
  l.foldl (fun s x => s.assign x.1 x.2) s

theorem Slots.assignAll_orderIdx (s : Slots) (l : List (ℕ × ℤ)) :
    (s.assignAll l).orderIdx = s.orderIdx + l.length := by
  induction l generalizing s with
  | nil => simp [assignAll]
  | cons x l ih =>
    rw [assignAll, List.foldl_cons, ← assignAll, ih]
    simp only [assign, List.length_cons]
    omega

theorem Slots.assignAll_of_notMem (s : Slots) {l : List (ℕ × ℤ)} {p : ℕ}
    (h : p ∉ l.map Prod.fst) :
    (s.assignAll l).order p = s.order p ∧ (s.assignAll l).stage p = s.stage p := by
  induction l generalizing s with
  | nil => exact ⟨rfl, rfl⟩
  | cons x l ih =>
    rw [List.map_cons, List.mem_cons, not_or] at h
    obtain ⟨horder, hstage⟩ := ih (s.assign x.1 x.2) h.2
    rw [assignAll, List.foldl_cons, ← assignAll, horder, hstage]
    exact ⟨Function.update_of_ne h.1 _ _, Function.update_of_ne h.1 _ _⟩

/-- Each key gets its position and its own stage. -/
theorem Slots.assignAll_of_mem (s : Slots) {l : List (ℕ × ℤ)} (hnodup : (l.map Prod.fst).Nodup)
    {p : ℕ} {stage : ℤ} (h : (p, stage) ∈ l) :
    (s.assignAll l).order p = s.orderIdx + (l.map Prod.fst).idxOf p ∧
      (s.assignAll l).stage p = stage := by
  induction l generalizing s with
  | nil => cases h
  | cons x l ih =>
    rw [List.map_cons, List.nodup_cons] at hnodup
    rw [assignAll, List.foldl_cons, ← assignAll]
    rcases List.mem_cons.mp h with rfl | h
    · obtain ⟨horder, hstage⟩ := (s.assign p stage).assignAll_of_notMem hnodup.1
      rw [horder, hstage]
      simp [assign]
    · obtain ⟨horder, hstage⟩ := ih (s.assign x.1 x.2) hnodup.2 h
      have hne : x.1 ≠ p := by
        rintro rfl
        exact hnodup.1 (List.mem_map.mpr ⟨_, h, rfl⟩)
      refine ⟨?_, hstage⟩
      rw [horder, List.map_cons, List.idxOf_cons_ne _ hne]
      simp only [assign]
      omega

variable {K : Body} {numStages : ℤ}

/-- The main loop is a list of assignments. -/
theorem makeStages_eq :
    K.makeStages numStages = Body.unassigned.assignAll (K.assignments numStages) := by
  rw [Body.makeStages, Slots.assignAll, Body.assignments, List.foldl_flatMap]
  congr 1
  funext s m
  rw [Body.placeMain]
  split
  · rfl
  · rw [List.foldl_cons, List.foldl_map, Body.lastUsedBy, List.foldl_filter]

theorem map_fst_assignments : (K.assignments numStages).map Prod.fst = K.placed := by
  rw [Body.assignments, Body.placed, List.map_flatMap]
  congr 1
  funext m
  split
  · rfl
  · simp [Function.comp_def]

theorem mem_lastUsedBy {m p : ℕ} : p ∈ K.lastUsedBy m ↔
    p < K.size ∧ K.copyStage p = true ∧ K.lastUseStage p = m := by
  simp [Body.lastUsedBy]

/-- A copy with a last use belongs to the first stage. -/
theorem isFirstStage_of_lastUse {p : ℕ} (hcopy : K.copyStage p = true)
    (huse : K.lastUseStage p ≠ -1) : K.isFirstStage p = true := by
  simp [Body.isFirstStage, hcopy, huse]

theorem isFirstStage_of_mem_lastUsedBy {m p : ℕ} (h : p ∈ K.lastUsedBy m) :
    K.isFirstStage p = true := by
  obtain ⟨-, hcopy, huse⟩ := mem_lastUsedBy.mp h
  exact isFirstStage_of_lastUse hcopy (by omega)

/-- The statement of the last stage that a statement is placed with. -/
def Body.anchor (K : Body) (p : ℕ) : ℤ := if K.isFirstStage p then K.lastUseStage p else p

/-- The place among the statements with the same anchor, which comes first itself. -/
def Body.rank (K : Body) (p : ℕ) : ℕ := if K.isFirstStage p then p + 1 else 0

/-- What the main loop sorts by. -/
def Body.Before (K : Body) (p q : ℕ) : Prop :=
  K.anchor p < K.anchor q ∨ K.anchor p = K.anchor q ∧ K.rank p < K.rank q

theorem before_asymm {p q : ℕ} (h : K.Before p q) : ¬ K.Before q p := by
  rw [Body.Before] at h ⊢
  omega

/-- The statements with an order are sorted. -/
theorem placed_pairwise : K.placed.Pairwise K.Before := by
  have hmain {m x : ℕ} (hm : K.isFirstStage m = false)
      (hx : x ∈ m :: K.lastUsedBy m) : K.anchor x = m := by
    rcases List.mem_cons.mp hx with rfl | hx
    · rw [Body.anchor, hm]
      rfl
    · rw [Body.anchor, isFirstStage_of_mem_lastUsedBy hx]
      exact (mem_lastUsedBy.mp hx).2.2
  rw [Body.placed, List.pairwise_flatMap]
  refine ⟨fun m _ => ?_, ?_⟩
  · split
    · exact List.Pairwise.nil
    · rename_i hm
      replace hm := Bool.eq_false_iff.mpr hm
      rw [List.pairwise_cons]
      refine ⟨fun p hp => .inr ⟨?_, ?_⟩, ?_⟩
      · rw [hmain hm List.mem_cons_self, hmain hm (List.mem_cons_of_mem _ hp)]
      · rw [Body.rank, Body.rank, hm, isFirstStage_of_mem_lastUsedBy hp]
        exact Nat.succ_pos p
      · refine (List.pairwise_lt_range.filter _).imp_of_mem fun {p q} hp hq hlt => .inr ⟨?_, ?_⟩
        · rw [hmain hm (List.mem_cons_of_mem _ hp), hmain hm (List.mem_cons_of_mem _ hq)]
        · rw [Body.rank, Body.rank, isFirstStage_of_mem_lastUsedBy hp,
            isFirstStage_of_mem_lastUsedBy hq]
          exact Nat.succ_lt_succ hlt
  · refine List.pairwise_lt_range.imp fun {m m'} hlt x hx y hy => .inl ?_
    split at hx
    · cases hx
    split at hy
    · cases hy
    rename_i hm hm'
    rw [hmain (Bool.eq_false_iff.mpr hm) hx, hmain (Bool.eq_false_iff.mpr hm') hy]
    exact_mod_cast hlt

theorem placed_nodup : K.placed.Nodup := by
  refine List.Pairwise.imp (fun {p q} h => ?_) placed_pairwise
  rintro rfl
  exact before_asymm h h

theorem mem_placed {p : ℕ} : p ∈ K.placed ↔ p < K.size ∧ K.isPlaced p = true := by
  simp only [Body.placed, List.mem_flatMap, List.mem_range, Body.isPlaced, Bool.or_eq_true,
    Bool.not_eq_true', Bool.and_eq_true, List.any_eq_true, decide_eq_true_eq]
  refine ⟨?_, ?_⟩
  · rintro ⟨m, hm, hp⟩
    split at hp
    · cases hp
    · rename_i hfirst
      rcases List.mem_cons.mp hp with rfl | hp
      · exact ⟨hm, .inl (Bool.eq_false_iff.mpr hfirst)⟩
      · obtain ⟨hlt, hcopy, huse⟩ := mem_lastUsedBy.mp hp
        exact ⟨hlt, .inr ⟨hcopy, m, hm, Bool.eq_false_iff.mpr hfirst, huse⟩⟩
  · rintro ⟨hp, hfirst | ⟨hcopy, m, hm, hfirst, huse⟩⟩
    · exact ⟨p, hp, by rw [hfirst]; exact List.mem_cons_self⟩
    · refine ⟨m, hm, ?_⟩
      rw [hfirst]
      exact List.mem_cons_of_mem _ (mem_lastUsedBy.mpr ⟨hp, hcopy, huse⟩)

/-- What the main loop does to a statement it gives an order. -/
theorem makeStages_of_placed (numStages : ℤ) {p : ℕ} (hp : p < K.size) (h : K.isPlaced p = true) :
    (K.makeStages numStages).order p = K.placed.idxOf p ∧
      (K.makeStages numStages).stage p = if K.isFirstStage p then 0 else numStages := by
  have hmem : (p, if K.isFirstStage p then 0 else numStages) ∈ K.assignments numStages := by
    obtain ⟨m, hm, hpm⟩ := List.mem_flatMap.mp (mem_placed.mpr ⟨hp, h⟩)
    refine List.mem_flatMap.mpr ⟨m, hm, ?_⟩
    split at hpm
    · cases hpm
    · rename_i hfirst
      rw [if_neg hfirst]
      rcases List.mem_cons.mp hpm with rfl | hpm
      · rw [if_neg hfirst]
        exact List.mem_cons_self
      · rw [if_pos (isFirstStage_of_mem_lastUsedBy hpm)]
        exact List.mem_cons_of_mem _ (List.mem_map.mpr ⟨p, hpm, rfl⟩)
  have hnodup : ((K.assignments numStages).map Prod.fst).Nodup := by
    rw [map_fst_assignments]
    exact placed_nodup
  obtain ⟨horder, hstage⟩ := Slots.assignAll_of_mem Body.unassigned hnodup hmem
  rw [makeStages_eq, horder, hstage, map_fst_assignments]
  exact ⟨zero_add _, rfl⟩

/-- The statements it leaves over keep the order `-1`. -/
theorem makeStages_of_not_placed {p : ℕ} (h : K.isPlaced p = false) :
    (K.makeStages numStages).order p = -1 := by
  have hnot : p ∉ (K.assignments numStages).map Prod.fst := by
    rw [map_fst_assignments, mem_placed, h]
    exact fun hp => Bool.noConfusion hp.2
  rw [makeStages_eq, (Slots.assignAll_of_notMem _ hnot).1]
  rfl

theorem makeStages_orderIdx : (K.makeStages numStages).orderIdx = K.placed.length := by
  rw [makeStages_eq, Slots.assignAll_orderIdx, ← List.length_map (f := Prod.fst),
    map_fst_assignments]
  exact zero_add _

end MainLoop

/-! ## The statements left over -/

section Rest

variable {K : Body} {numStages : ℤ}

/-- How many statements before a position are left over. -/
def Body.restBefore (K : Body) (p : ℕ) : ℕ := Nat.count (fun q => K.isPlaced q = false) p

theorem restBefore_le (p : ℕ) : K.restBefore p ≤ p := Nat.count_le _

theorem restBefore_mono {p q : ℕ} (h : p ≤ q) : K.restBefore p ≤ K.restBefore q :=
  Nat.count_monotone _ h

theorem restBefore_lt {p q : ℕ} (hp : K.isPlaced p = false) (h : p < q) :
    K.restBefore p < K.restBefore q :=
  Nat.count_strict_mono hp h

theorem placed_length : K.placed.length + K.restBefore K.size = K.size := by
  have hperm : K.placed.Perm ((List.range K.size).filter K.isPlaced) := by
    refine (List.perm_ext_iff_of_nodup placed_nodup (List.nodup_range.filter _)).mpr fun p => ?_
    rw [mem_placed, List.mem_filter, List.mem_range]
  have hsplit := List.length_eq_length_filter_add (l := List.range K.size) K.isPlaced
  rw [hperm.length_eq, Body.restBefore, count_eq_length_filter]
  rw [List.length_range] at hsplit
  simp only [Bool.decide_eq_false]
  exact hsplit.symm

/-- After the first statements: each statement left over among them has raised the
numbers from its own on. -/
structure Raised (K : Body) (s : Slots) (p : ℕ) (t : Slots × ℤ) : Prop where
  elem : t.2 = K.restBefore p - 1
  orderIdx : t.1.orderIdx = s.orderIdx + K.restBefore p
  order : ∀ q < K.size, t.1.order q = s.order q + min (K.restBefore p) (q + 1)
  stage : ∀ q, t.1.stage q = if q < p ∧ K.isPlaced q = false then 0 else s.stage q

theorem placeRest_raised {s : Slots} (hs : ∀ q < K.size, s.order q = -1 ↔ K.isPlaced q = false)
    {p : ℕ} (hp : p < K.size) {t : Slots × ℤ} (h : Raised K s p t) :
    Raised K s (p + 1) (K.placeRest t p) := by
  obtain ⟨⟨order, stage, orderIdx⟩, elem⟩ := t
  obtain ⟨helem, hidx, horder, hstage⟩ := h
  simp only at helem hidx horder hstage
  have hle : K.restBefore p ≤ p := restBefore_le p
  have hsucc : K.restBefore (p + 1) =
      K.restBefore p + if K.isPlaced p = false then 1 else 0 := Nat.count_succ _ p
  have hfound : order p = elem ↔ K.isPlaced p = false := by
    rw [← hs p hp, horder p hp, helem]
    omega
  rw [Body.placeRest]
  simp only
  by_cases hplaced : K.isPlaced p = false
  · rw [if_pos (hfound.mpr hplaced)]
    rw [if_pos hplaced] at hsucc
    have hsame : Function.update order p elem = order := by
      rw [← hfound.mpr hplaced, Function.update_eq_self]
    refine ⟨?_, ?_, fun q hq => ?_, fun q => ?_⟩
    · simp only
      omega
    · simp only
      omega
    · simp only [hsame]
      have hq' := horder q hq
      split <;> omega
    · simp only [Function.update_apply, hstage]
      grind
  · rw [if_neg (mt hfound.mp hplaced)]
    rw [if_neg hplaced] at hsucc
    refine ⟨?_, ?_, fun q hq => ?_, fun q => ?_⟩
    · simp only
      omega
    · simp only
      omega
    · have hq' := horder q hq
      simp only
      omega
    · simp only [hstage]
      grind

theorem handleRest_raised {s : Slots} (hs : ∀ q < K.size, s.order q = -1 ↔ K.isPlaced q = false)
    {p : ℕ} (hp : p ≤ K.size) : Raised K s p ((List.range p).foldl K.placeRest (s, -1)) := by
  induction p with
  | zero =>
    refine ⟨?_, ?_, fun q hq => ?_, fun q => ?_⟩ <;> simp [Body.restBefore]
  | succ p ih =>
    rw [List.range_succ, List.foldl_append]
    exact placeRest_raised hs (by omega) (ih (by omega))

variable (K numStages) in
/-- The orders and stages before copies are moved. -/
def Body.settled : Slots := K.handleRest (K.makeStages numStages)

theorem settled_raised (K : Body) (numStages : ℤ) :
    Raised K (K.makeStages numStages) K.size
      ((List.range K.size).foldl K.placeRest (K.makeStages numStages, -1)) := by
  refine handleRest_raised (fun q hq => ?_) le_rfl
  cases h : K.isPlaced q with
  | true =>
    have horder := (makeStages_of_placed numStages hq h).1
    simp only [Bool.true_eq_false, iff_false]
    omega
  | false =>
    simp only [iff_true]
    exact makeStages_of_not_placed h

theorem settled_orderIdx : (K.settled numStages).orderIdx = K.size := by
  have h := (settled_raised K numStages).orderIdx
  rw [makeStages_orderIdx] at h
  have hlen := placed_length (K := K)
  rw [Body.settled, Body.handleRest, h]
  exact_mod_cast hlen

theorem settled_of_placed (numStages : ℤ) {p : ℕ} (hp : p < K.size) (h : K.isPlaced p = true) :
    (K.settled numStages).order p =
        K.placed.idxOf p + min (K.restBefore K.size) (p + 1) ∧
      (K.settled numStages).stage p = if K.isFirstStage p then 0 else numStages := by
  obtain ⟨horder, hstage⟩ := makeStages_of_placed numStages hp h
  have hraised := settled_raised K numStages
  have horder' := hraised.order p hp
  have hstage' := hraised.stage p
  rw [horder] at horder'
  rw [if_neg (by simp [h]), hstage] at hstage'
  exact ⟨horder', hstage'⟩

theorem settled_of_not_placed (numStages : ℤ) {p : ℕ} (hp : p < K.size) (h : K.isPlaced p = false) :
    (K.settled numStages).order p = min (K.restBefore K.size) (p + 1) - 1 ∧
      (K.settled numStages).stage p = 0 := by
  have hraised := settled_raised K numStages
  have horder := hraised.order p hp
  have hstage := hraised.stage p
  rw [makeStages_of_not_placed h] at horder
  rw [if_pos ⟨hp, h⟩] at hstage
  refine ⟨?_, hstage⟩
  rw [Body.settled, Body.handleRest, horder]
  omega

/-- All statements left over, but for the last, come before all others. -/
def Body.RestFirst (K : Body) : Prop :=
  ∀ i j l, i < j → j < l → l < K.size → K.isPlaced j = false → K.isPlaced l = false →
    K.isPlaced i = false

/-- Then a statement left over has as many before it as its number says. -/
theorem restFirst_of_not_placed (h : K.RestFirst) {p : ℕ} (hp : p < K.size)
    (hrest : K.isPlaced p = false) : min (K.restBefore K.size) (p + 1) = K.restBefore p + 1 := by
  have hle := restBefore_le (K := K) p
  have hlt := restBefore_lt hrest hp
  by_cases hlast : K.restBefore K.size = K.restBefore p + 1
  · omega
  · -- another one comes later, so all before are left over
    obtain ⟨l, hl, hlrest, hlcount⟩ :=
      exists_count_eq (P := fun q => K.isPlaced q = false) (v := K.restBefore p + 1)
        (show K.restBefore p + 1 < K.restBefore K.size by omega)
    have hpl : p < l := by
      by_contra hnot
      have := restBefore_mono (K := K) (Nat.le_of_not_lt hnot)
      rw [Body.restBefore, hlcount] at this
      omega
    have hall : K.restBefore p = p :=
      Nat.count_of_forall fun i hi => h i p l hi hpl hl hrest hlrest
    omega

/-- And the others come after all statements left over. -/
theorem restFirst_of_placed (h : K.RestFirst) {p : ℕ} (hplaced : K.isPlaced p = true) :
    min (K.restBefore K.size) (p + 1) = K.restBefore K.size := by
  by_contra hnot
  have hmany : p + 1 < K.restBefore K.size := by omega
  obtain ⟨j, hj, hjrest, hjcount⟩ :=
    exists_count_eq (P := fun q => K.isPlaced q = false) (v := p)
      (show p < K.restBefore K.size by omega)
  obtain ⟨l, hl, hlrest, hlcount⟩ :=
    exists_count_eq (P := fun q => K.isPlaced q = false) (v := p + 1) hmany
  have hjl : j < l := by
    by_contra hle
    have := restBefore_mono (K := K) (Nat.le_of_not_lt hle)
    rw [Body.restBefore, Body.restBefore, hlcount, hjcount] at this
    omega
  have hpj : p < j := by
    have hle := restBefore_le (K := K) j
    rw [Body.restBefore, hjcount] at hle
    rcases Nat.lt_or_eq_of_le hle with hlt | rfl
    · exact hlt
    · rw [hjrest] at hplaced
      cases hplaced
  have := h p j l hpj hjl hl hjrest hlrest
  rw [this] at hplaced
  cases hplaced

theorem idxOf_placed_lt {p : ℕ} (hp : p < K.size) (h : K.isPlaced p = true) :
    K.placed.idxOf p < K.placed.length :=
  List.idxOf_lt_length_of_mem (mem_placed.mpr ⟨hp, h⟩)

/-- Every statement gets a number of its own. -/
theorem settled_numbers (numStages : ℤ) (h : K.RestFirst) : Numbers K.size (K.settled numStages).order := by
  have hlen := placed_length (K := K)
  have hplaced {p : ℕ} (hp : p < K.size) (hp' : K.isPlaced p = true) :
      (K.settled numStages).order p = K.placed.idxOf p + K.restBefore K.size := by
    have hmin := restFirst_of_placed h hp'
    have := (settled_of_placed numStages hp hp').1
    omega
  have hrest {p : ℕ} (hp : p < K.size) (hp' : K.isPlaced p = false) :
      (K.settled numStages).order p = K.restBefore p := by
    have hmin := restFirst_of_not_placed h hp hp'
    have := (settled_of_not_placed numStages hp hp').1
    omega
  refine ⟨fun p hp => ?_, fun p hp => ?_, fun p hp q hq heq => ?_⟩
  · cases hp' : K.isPlaced p with
    | true =>
      rw [hplaced hp hp']
      omega
    | false =>
      rw [hrest hp hp']
      omega
  · cases hp' : K.isPlaced p with
    | true =>
      rw [hplaced hp hp']
      have := idxOf_placed_lt hp hp'
      omega
    | false =>
      rw [hrest hp hp']
      have := restBefore_le (K := K) p
      omega
  · cases hp' : K.isPlaced p with
    | true =>
      cases hq' : K.isPlaced q with
      | true =>
        rw [hplaced hp hp', hplaced hq hq'] at heq
        exact (List.idxOf_inj (mem_placed.mpr ⟨hp, hp'⟩)).mp (by omega)
      | false =>
        rw [hplaced hp hp', hrest hq hq'] at heq
        have := restBefore_lt hq' hq
        omega
    | false =>
      cases hq' : K.isPlaced q with
      | true =>
        rw [hrest hp hp', hplaced hq hq'] at heq
        have := restBefore_lt hp' hp
        omega
      | false =>
        rw [hrest hp hp', hrest hq hq'] at heq
        rcases Nat.lt_trichotomy p q with hlt | rfl | hgt
        · have := restBefore_lt hp' hlt
          omega
        · rfl
        · have := restBefore_lt hq' hgt
          omega

/-- Otherwise the last two statements left over collide. -/
theorem restFirst_of_inj (numStages : ℤ)
    (h : ∀ p < K.size, ∀ q < K.size,
      (K.settled numStages).order p = (K.settled numStages).order q → p = q) :
    K.RestFirst := by
  intro i j l hij hjl hl hj hlrest
  by_contra hi
  have hcount := restBefore_lt hj hjl
  have hcount' := restBefore_lt hlrest hl
  obtain ⟨y, hy, hyrest, hycount⟩ :=
    exists_count_eq (P := fun q => K.isPlaced q = false) (v := K.restBefore K.size - 2)
      (show _ < K.restBefore K.size by omega)
  obtain ⟨z, hz, hzrest, hzcount⟩ :=
    exists_count_eq (P := fun q => K.isPlaced q = false) (v := K.restBefore K.size - 1)
      (show _ < K.restBefore K.size by omega)
  have hyz : y < z := by
    by_contra hle
    have := restBefore_mono (K := K) (Nat.le_of_not_lt hle)
    rw [Body.restBefore, Body.restBefore, hzcount, hycount] at this
    omega
  have hjy : j ≤ y := by
    by_contra hlt
    have := restBefore_lt hyrest (Nat.lt_of_not_le hlt)
    rw [Body.restBefore, hycount] at this
    omega
  have hyfew : K.restBefore y < y := count_lt_of_not (lt_of_lt_of_le hij hjy) hi
  rw [Body.restBefore, hycount] at hyfew
  have hy' := (settled_of_not_placed numStages hy hyrest).1
  have hz' := (settled_of_not_placed numStages hz hzrest).1
  have heq := h y hy z hz (by omega)
  omega

end Rest

/-! ## Copies at the end -/

section Move

variable {K : Body} {numStages : ℤ}

theorem foldl_min_le {f : ℕ → ℤ} {l : List ℕ} {a : ℤ} {p : ℕ} (hp : p ∈ l) :
    l.foldl (fun n p => min n (f p)) a ≤ f p := by
  have hstart : ∀ (l : List ℕ) (a : ℤ), l.foldl (fun n p => min n (f p)) a ≤ a := by
    intro l
    induction l with
    | nil => exact fun a => le_rfl
    | cons q l ih => exact fun a => le_trans (ih _) (min_le_left _ _)
  induction l generalizing a with
  | nil => cases hp
  | cons q l ih =>
    rcases List.mem_cons.mp hp with rfl | hp
    · exact le_trans (hstart l _) (min_le_right _ _)
    · exact ih hp

theorem le_foldl_max {f : ℕ → ℤ} {l : List ℕ} {a : ℤ} {p : ℕ} (hp : p ∈ l) :
    f p ≤ l.foldl (fun n p => max n (f p)) a := by
  have hstart : ∀ (l : List ℕ) (a : ℤ), a ≤ l.foldl (fun n p => max n (f p)) a := by
    intro l
    induction l with
    | nil => exact fun a => le_rfl
    | cons q l ih => exact fun a => le_trans (le_max_left _ _) (ih _)
  induction l generalizing a with
  | nil => cases hp
  | cons q l ih =>
    rcases List.mem_cons.mp hp with rfl | hp
    · exact le_trans (le_max_right _ _) (hstart l _)
    · exact ih hp

/-- `copy_stage_at_end` is the number of copies where they have the highest orders. -/
theorem atEnd_of_copyStageAtEnd {s : Slots} (h : 0 < K.copyStageAtEnd s) :
    AtEnd K.size s.order K.isCopy ∧
      K.copyStageAtEnd s = ((List.range K.size).filter K.isCopy).length := by
  rw [Body.copyStageAtEnd] at h ⊢
  split at h
  · rename_i hlt
    rw [if_pos hlt]
    refine ⟨fun p hp hcopy q hq hother => ?_, rfl⟩
    refine lt_of_le_of_lt (le_foldl_max ?_) (lt_of_lt_of_le hlt (foldl_min_le ?_))
    · exact List.mem_filter.mpr ⟨List.mem_range.mpr hq, by simp [hother]⟩
    · exact List.mem_filter.mpr ⟨List.mem_range.mpr hp, hcopy⟩
  · omega

/-- What moving the copies does: nothing, or a rotation that keeps the order within the
copies and within the others, and takes the others one stage down. -/
theorem moveCopies_cases (numStages : ℤ) {s : Slots} (h : Numbers K.size s.order) :
    K.moveCopies numStages s = s ∨
      2 ≤ numStages ∧ Numbers K.size (K.moveCopies numStages s).order ∧
        (∀ p, (K.moveCopies numStages s).stage p =
          if K.isCopy p then s.stage p else s.stage p - 1) ∧
        ∀ p < K.size, ∀ q < K.size, K.isCopy p = K.isCopy q →
          ((K.moveCopies numStages s).order p < (K.moveCopies numStages s).order q ↔
            s.order p < s.order q) := by
  rw [Body.moveCopies]
  split
  · rename_i hmove
    obtain ⟨hend, hcount⟩ := atEnd_of_copyStageAtEnd hmove.1
    refine .inr ⟨hmove.2, h.rotate _, fun p => rfl, fun p hp q hq hpq => ?_⟩
    simp only [hcount]
    cases hcopy : K.isCopy p with
    | true =>
      rw [h.rotate_of_true hend hp hcopy, h.rotate_of_true hend hq (hpq ▸ hcopy)]
      omega
    | false =>
      rw [h.rotate_of_false hend hp hcopy, h.rotate_of_false hend hq (hpq ▸ hcopy)]
      omega
  · exact .inl rfl

end Move

/-! ## Legal schedules -/

/-- The orders are a permutation, and what a statement writes is read later: in a later
stage, or in the same stage at a later place. -/
structure Legal (n : ℕ) (feeds : ℕ → ℕ → Prop) (s : Slots) : Prop where
  orders : PermutesRange n s.order
  dependences : ∀ i j, i < j → j < n → feeds i j →
    s.stage i < s.stage j ∨ s.stage i = s.stage j ∧ s.order i < s.order j

/-- When a loop body gets a legal schedule. -/
structure Body.Schedulable (K : Body) (feeds : ℕ → ℕ → Prop) : Prop where
  /-- all statements left over, but for the last, come before all others -/
  restFirst : K.RestFirst
  /-- what a statement of the last stage writes is read in the last stage -/
  last : ∀ i j, i < j → j < K.size → feeds i j → K.isFirstStage i = false →
    K.isFirstStage j = false
  /-- a copy placed by its last use feeds only copies placed at the same place or later,
  apart from statements of the last stage -/
  copies : ∀ i j, i < j → j < K.size → feeds i j → K.isFirstStage i = true →
    K.isFirstStage j = true → K.isPlaced i = true →
    K.isPlaced j = true ∧ K.lastUseStage i ≤ K.lastUseStage j

section Legal

variable {K : Body} {numStages : ℤ} {feeds : ℕ → ℕ → Prop}

theorem isPlaced_of_last {p : ℕ} (h : K.isFirstStage p = false) : K.isPlaced p = true := by
  simp [Body.isPlaced, h]

theorem isCopy_of_isFirstStage {p : ℕ} (h : K.isFirstStage p = true) : K.isCopy p = true := by
  simp only [Body.isFirstStage, Bool.or_eq_true, Bool.and_eq_true] at h
  simp only [Body.isCopy, Bool.or_eq_true]
  exact h.imp And.left id

theorem settled_stage {p : ℕ} (hp : p < K.size) :
    (K.settled numStages).stage p = if K.isFirstStage p then 0 else numStages := by
  cases h : K.isPlaced p with
  | true => exact (settled_of_placed numStages hp h).2
  | false =>
    have hfirst : K.isFirstStage p = true := by
      by_contra hnot
      rw [isPlaced_of_last (Bool.eq_false_iff.mpr hnot)] at h
      cases h
    rw [(settled_of_not_placed numStages hp h).2, if_pos hfirst]

/-- The order of two statements that the main loop places. -/
theorem settled_lt_iff_before (h : K.RestFirst) {i j : ℕ} (hij : i ≠ j) (hi : i < K.size)
    (hj : j < K.size) (hi' : K.isPlaced i = true) (hj' : K.isPlaced j = true) :
    (K.settled numStages).order i < (K.settled numStages).order j ↔ K.Before i j := by
  have hmi := restFirst_of_placed h hi'
  have hmj := restFirst_of_placed h hj'
  have hoi := (settled_of_placed numStages hi hi').1
  have hoj := (settled_of_placed numStages hj hj').1
  rw [← idxOf_lt_idxOf_iff (fun a b => before_asymm) placed_pairwise (mem_placed.mpr ⟨hi, hi'⟩)
    (mem_placed.mpr ⟨hj, hj'⟩) hij]
  omega

/-- Statements of the last stage keep their order. -/
theorem settled_lt_of_last (numStages : ℤ) (h : K.RestFirst) {i j : ℕ} (hij : i < j) (hj : j < K.size)
    (hi' : K.isFirstStage i = false) (hj' : K.isFirstStage j = false) :
    (K.settled numStages).order i < (K.settled numStages).order j := by
  refine (settled_lt_iff_before h hij.ne (by omega) hj (isPlaced_of_last hi')
    (isPlaced_of_last hj')).mpr (.inl ?_)
  rw [Body.anchor, Body.anchor, if_neg (by simp [hi']), if_neg (by simp [hj'])]
  exact_mod_cast hij

/-- The order of two statements of the first stage. -/
theorem settled_lt_iff_of_first (h : K.RestFirst) {i j : ℕ} (hij : i < j) (hj : j < K.size)
    (hi' : K.isFirstStage i = true) (hj' : K.isFirstStage j = true) :
    (K.settled numStages).order i < (K.settled numStages).order j ↔
      (K.isPlaced i = true → K.isPlaced j = true ∧ K.lastUseStage i ≤ K.lastUseStage j) := by
  have hi : i < K.size := by omega
  cases hpi : K.isPlaced i with
  | false =>
    have hoi := (settled_of_not_placed numStages hi hpi).1
    have hmi := restFirst_of_not_placed h hi hpi
    refine iff_of_true ?_ fun h => Bool.noConfusion h
    cases hpj : K.isPlaced j with
    | false =>
      have hoj := (settled_of_not_placed numStages hj hpj).1
      have hmj := restFirst_of_not_placed h hj hpj
      have := restBefore_lt hpi hij
      omega
    | true =>
      have hoj := (settled_of_placed numStages hj hpj).1
      have hmj := restFirst_of_placed h hpj
      have := restBefore_lt hpi hi
      omega
  | true =>
    cases hpj : K.isPlaced j with
    | false =>
      have hoi := (settled_of_placed numStages hi hpi).1
      have hmi := restFirst_of_placed h hpi
      have hoj := (settled_of_not_placed numStages hj hpj).1
      have hmj := restFirst_of_not_placed h hj hpj
      have := restBefore_lt hpj hj
      refine iff_of_false (by omega) fun hno => ?_
      exact Bool.noConfusion (hno rfl).1
    | true =>
      rw [settled_lt_iff_before h hij.ne hi hj hpi hpj, Body.Before, Body.anchor, Body.anchor,
        Body.rank, Body.rank, if_pos hi', if_pos hj', if_pos hi', if_pos hj']
      simp only [true_and, forall_const]
      omega

/-- One dependence is respected before copies are moved. -/
theorem settled_dependence_iff (hstages : 1 ≤ numStages) (h : K.RestFirst) {i j : ℕ} (hij : i < j)
    (hj : j < K.size) :
    ((K.settled numStages).stage i < (K.settled numStages).stage j ∨
        (K.settled numStages).stage i = (K.settled numStages).stage j ∧
          (K.settled numStages).order i < (K.settled numStages).order j) ↔
      (K.isFirstStage i = false → K.isFirstStage j = false) ∧
        (K.isFirstStage i = true → K.isFirstStage j = true → K.isPlaced i = true →
          K.isPlaced j = true ∧ K.lastUseStage i ≤ K.lastUseStage j) := by
  rw [settled_stage (by omega), settled_stage hj]
  cases hi' : K.isFirstStage i with
  | false =>
    cases hj' : K.isFirstStage j with
    | false =>
      have hlt := settled_lt_of_last numStages h hij hj hi' hj'
      exact iff_of_true (.inr ⟨rfl, hlt⟩) ⟨id, nofun⟩
    | true =>
      simp only [Bool.false_eq_true, if_false, if_true]
      exact iff_of_false (by omega) (by simp)
  | true =>
    cases hj' : K.isFirstStage j with
    | false =>
      simp only [Bool.false_eq_true, if_false, if_true]
      exact iff_of_true (.inl (by omega)) ⟨nofun, nofun⟩
    | true =>
      rw [settled_lt_iff_of_first h hij hj hi' hj']
      simp

/-- Moving the copies respects the same dependences. A copy whose result is read has a
last use, so a statement of the last stage that feeds another one is no copy. -/
theorem moved_dependence_iff (h : K.RestFirst) {i j : ℕ} (hij : i < j)
    (hj : j < K.size) (hcopy : K.isCopy i = true → K.isFirstStage i = true) :
    ((K.moveCopies numStages (K.settled numStages)).stage i <
          (K.moveCopies numStages (K.settled numStages)).stage j ∨
        (K.moveCopies numStages (K.settled numStages)).stage i =
            (K.moveCopies numStages (K.settled numStages)).stage j ∧
          (K.moveCopies numStages (K.settled numStages)).order i <
            (K.moveCopies numStages (K.settled numStages)).order j) ↔
      ((K.settled numStages).stage i < (K.settled numStages).stage j ∨
        (K.settled numStages).stage i = (K.settled numStages).stage j ∧
          (K.settled numStages).order i < (K.settled numStages).order j) := by
  rcases moveCopies_cases numStages (settled_numbers numStages h) with
    heq | ⟨htwo, -, hstage, horder⟩
  · rw [heq]
  · have hi : i < K.size := by omega
    rw [hstage i, hstage j, settled_stage hi, settled_stage hj]
    cases hi' : K.isFirstStage i with
    | false =>
      have hci : K.isCopy i = false := by
        by_contra hnot
        rw [hcopy (by simpa using hnot)] at hi'
        cases hi'
      cases hj' : K.isFirstStage j with
      | false =>
        have hlt := settled_lt_of_last numStages h hij hj hi' hj'
        cases hcj : K.isCopy j with
        | false =>
          have hlt' := (horder i hi j hj (hci.trans hcj.symm)).mpr hlt
          simp [hci, hlt, hlt']
        | true => simp [hci, hlt]
      | true =>
        simp only [hci, isCopy_of_isFirstStage hj', Bool.false_eq_true, if_false, if_true]
        exact iff_of_false (by omega) (by omega)
    | true =>
      have hci := isCopy_of_isFirstStage hi'
      cases hj' : K.isFirstStage j with
      | false =>
        cases hcj : K.isCopy j with
        | false =>
          simp only [hci, Bool.false_eq_true, if_false, if_true]
          exact iff_of_true (.inl (by omega)) (.inl (by omega))
        | true =>
          have hpos : 0 < numStages := by omega
          simp [hci, hpos]
      | true =>
        have hcj := isCopy_of_isFirstStage hj'
        have hlt' := horder i hi j hj (hci.trans hcj.symm)
        simp [hci, hcj, hlt']

/-- A schedule is legal exactly for the bodies described. -/
theorem schedule_legal_iff (hstages : 1 ≤ numStages)
    (hcopy : ∀ i j, i < j → j < K.size → feeds i j → K.isCopy i = true → K.isFirstStage i = true)
    {s : Slots} (hs : K.schedule numStages = some s) :
    Legal K.size feeds s ↔ K.Schedulable feeds := by
  have hs' : s = K.moveCopies numStages (K.settled numStages) := by
    rw [Body.schedule] at hs
    split at hs
    · cases hs
    · rw [← Body.settled] at hs
      simp only [settled_orderIdx, if_true] at hs
      exact (Option.some.inj hs).symm
  subst hs'
  have hdep (hrest : K.RestFirst) {i j : ℕ} (hij : i < j) (hj : j < K.size) (hf : feeds i j) :=
    (moved_dependence_iff hrest hij hj (hcopy i j hij hj hf)).trans
      (settled_dependence_iff hstages hrest hij hj)
  refine ⟨fun h => ?_, fun h => ?_⟩
  · have hrest : K.RestFirst := by
      refine restFirst_of_inj numStages fun p hp q hq heq => h.orders.inj hp hq ?_
      -- a rotation keeps a collision
      rw [Body.moveCopies]
      split
      · simp only [heq]
      · exact heq
    refine ⟨hrest, fun i j hij hj hf => ?_, fun i j hij hj hf => ?_⟩
    · exact ((hdep hrest hij hj hf).mp (h.dependences i j hij hj hf)).1
    · exact ((hdep hrest hij hj hf).mp (h.dependences i j hij hj hf)).2
  · have hnumbers := settled_numbers numStages h.restFirst
    refine ⟨?_, fun i j hij hj hf => ?_⟩
    · rcases moveCopies_cases numStages hnumbers with heq | ⟨-, hmoved, -, -⟩
      · rw [heq]
        exact hnumbers.permutesRange
      · exact hmoved.permutesRange
    · exact (hdep h.restFirst hij hj hf).mpr ⟨h.last i j hij hj hf, h.copies i j hij hj hf⟩

end Legal

/-! ## Loop bodies -/

section Plan

variable {B R : Type} [DecidableEq B] {mayConflict : R → R → Bool} {infos : List (StageInfo B R)}

/-- A statement writes a region that a later one may read in the same iteration. -/
def Feeds (mayConflict : R → R → Bool) (infos : List (StageInfo B R)) (i j : ℕ) : Prop :=
  (infoAt infos i).feeds mayConflict (infoAt infos j) = true

/-- The last use of a copy is not before a statement it feeds. -/
theorem le_lastUseStage {i j : ℕ} (hij : i < j) (hj : j < infos.length)
    (hcopy : (infoAt infos i).copyStage = true) (hfeeds : Feeds mayConflict infos i j) :
    (j : ℤ) ≤ lastUseStage mayConflict infos i := by
  have hmono : ∀ (l : List ℕ) (a : ℤ), a ≤ l.foldl
      (fun (last : ℤ) (j : ℕ) =>
        if (infoAt infos i).copyStage && decide (i < j) &&
            (infoAt infos i).feeds mayConflict (infoAt infos j) then max last j
        else last) a := by
    intro l
    induction l with
    | nil => exact fun a => le_rfl
    | cons k l ih =>
      intro a
      rw [List.foldl_cons]
      split
      · exact le_trans (le_max_left _ _) (ih _)
      · exact ih _
  obtain ⟨l₁, l₂, hrange⟩ := List.append_of_mem (List.mem_range.mpr hj)
  rw [lastUseStage, hrange, List.foldl_append, List.foldl_cons]
  rw [Feeds] at hfeeds
  rw [if_pos (by simp [hcopy, hij, hfeeds])]
  exact le_trans (le_max_right _ _) (hmono l₂ _)

/-- Where planning does not abort, its schedule is legal exactly when all statements
left over, but for the last, come before all others, no statement of the last stage
feeds one of the first stage, and no copy placed by its last use feeds a statement of
the first stage that is placed before it. -/
theorem plan_legal_iff {numStages : ℤ} {s : Slots}
    (h : plan mayConflict numStages infos = some s) :
    Legal infos.length (Feeds mayConflict infos) s ↔
      (bodyOf mayConflict infos).Schedulable (Feeds mayConflict infos) := by
  rw [plan] at h
  split at h
  · cases h
  rename_i hstages
  split at h
  · cases h
  refine schedule_legal_iff (by omega) (fun i j hij hj hf hcopy => ?_) h
  simp only [Body.isCopy, Bool.or_eq_true] at hcopy
  rcases hcopy with hcopy | hprepare
  · have hle := le_lastUseStage hij hj hcopy hf
    exact isFirstStage_of_lastUse hcopy (by simp only [bodyOf]; omega)
  · simp [Body.isFirstStage, hprepare]

/-- A statement that reads and writes whole buffers. -/
def wholeBuffers (reads writes : List ℕ) (copyStage : Bool) (conditonalExpr : Option (List ℕ)) :
    StageInfo ℕ Unit :=
  ⟨reads.map fun b => ⟨b, ()⟩, writes.map fun b => ⟨b, ()⟩, copyStage, conditonalExpr⟩

/-- A copy to shared memory and a statement that uses it. -/
def copyUse : List (StageInfo ℕ Unit) :=
  [wholeBuffers [0] [1] true none, wholeBuffers [1, 2] [2] false none]

/-- The copy and its use get a legal schedule. -/
theorem copyUse_legal :
    ∃ s, plan (fun _ _ => true) 2 copyUse = some s ∧
      Legal copyUse.length (Feeds (fun _ _ => true) copyUse) s := by
  have hplan : plan (fun _ _ => true) 2 copyUse = some _ := rfl
  refine ⟨_, hplan, (plan_legal_iff hplan).mpr ⟨?_, ?_, ?_⟩⟩
  · intro i j l hij hjl hl
    have : l < 2 := hl
    omega
  · intro i j hij hj _
    have : j < 2 := hj
    obtain rfl : i = 0 := by omega
    obtain rfl : j = 1 := by omega
    decide
  · intro i j hij hj _
    have : j < 2 := hj
    obtain rfl : i = 0 := by omega
    obtain rfl : j = 1 := by omega
    decide

/-- A computation, two masks that feed a condition, and the statement under it. -/
def twoMasks : List (StageInfo ℕ Unit) :=
  [wholeBuffers [0] [1] false none, wholeBuffers [2] [3] false none,
    wholeBuffers [4] [5] false none, wholeBuffers [1] [6] false (some [3, 5])]

/-- The computation and both masks get the order `1`. -/
theorem twoMasks_collide :
    ∃ s, plan (fun _ _ => true) 1 twoMasks = some s ∧
      (List.range 4).map s.order = [1, 1, 1, 3] ∧
      ¬ Legal twoMasks.length (Feeds (fun _ _ => true) twoMasks) s := by
  refine ⟨_, rfl, by decide, fun h => ?_⟩
  have hsame := h.orders.inj (p := 0) (q := 1) (by decide) (by decide) (by decide)
  cases hsame

end Plan

end TileLangNpuir.Pipeline
