import TileLangNpuir.Carver.ShapeRegions

/-!
# Extents

What the extents of a buffer come from: the hull of the bounds of its regions, or of the one region
of a buffer on the path to the target.
-/

namespace TileLangNpuir.Carver.ShapeInference

variable {An : Analyzer} {deps : List Statement} {t : Statement} {rank : Name → ℕ}
  {f : Name → Option (List Region)} {env : Intervals Var}

/-! ## The hull -/

/-- One interval is in another. -/
def Within (a b : ℤ × ℤ) : Prop := b.1 ≤ a.1 ∧ a.2 ≤ b.2

theorem within_refl (l : List (ℤ × ℤ)) : List.Forall₂ Within l l :=
  List.forall₂_same.mpr fun _ _ => ⟨le_rfl, le_rfl⟩

theorem within_trans {l m n : List (ℤ × ℤ)} (h : List.Forall₂ Within l m)
    (h' : List.Forall₂ Within m n) : List.Forall₂ Within l n := by
  induction h generalizing n with
  | nil => exact h'
  | cons hab _ ih =>
    cases h' with
    | cons hbc h' => exact .cons ⟨hbc.1.trans hab.1, hab.2.trans hbc.2⟩ (ih h')

theorem within_merge {l m : List (ℤ × ℤ)} (h : l.length = m.length) :
    List.Forall₂ Within l (List.zipWith mergeTwoBounds l m) ∧
      List.Forall₂ Within m (List.zipWith mergeTwoBounds l m) := by
  induction l generalizing m with
  | nil =>
    obtain rfl := List.length_eq_zero_iff.mp h.symm
    exact ⟨.nil, .nil⟩
  | cons a l ih =>
    cases m with
    | nil => cases h
    | cons b m =>
      obtain ⟨hl, hm⟩ := ih (Nat.succ.inj h)
      exact ⟨.cons ⟨min_le_left .., le_max_left ..⟩ hl, .cons ⟨min_le_right .., le_max_right ..⟩ hm⟩

/-- One region more. -/
def mergeRegion (An : Analyzer) (env : Intervals Var) (result : Option (List (ℤ × ℤ)))
    (region : Region) : Option (List (ℤ × ℤ)) :=
  match result with
  | some result => some (List.zipWith mergeTwoBounds result (region.map (An.constIntBound env)))
  | none => some (region.map (An.constIntBound env))

theorem mergeRegions_map_some (An : Analyzer) (env : Intervals Var) (l : List Region) :
    mergeRegions An env (l.map some) = .ok (l.foldl (mergeRegion An env) none) := by
  rw [mergeRegions]
  generalize (none : Option (List (ℤ × ℤ))) = result
  induction l generalizing result with
  | nil => rfl
  | cons r l ih =>
    rw [List.map_cons, List.foldlM_cons, List.foldl_cons, ← ih]
    cases result with
    | none => rfl
    | some result => rfl

theorem foldl_mergeRegion (An : Analyzer) (env : Intervals Var) {n : ℕ} {l : List Region} (hl : ∀ r ∈ l, r.length = n)
    {bs : List (ℤ × ℤ)} (hbs : bs.length = n) :
    ∃ bs', l.foldl (mergeRegion An env) (some bs) = some bs' ∧ List.Forall₂ Within bs bs' ∧
      ∀ r ∈ l, List.Forall₂ Within (r.map (An.constIntBound env)) bs' := by
  induction l generalizing bs with
  | nil => exact ⟨bs, rfl, within_refl bs, nofun⟩
  | cons r l ih =>
    rw [List.forall_mem_cons] at hl
    have hlength : bs.length = (r.map (An.constIntBound env)).length := by
      rw [List.length_map, hl.1, hbs]
    obtain ⟨hleft, hright⟩ := within_merge hlength
    obtain ⟨bs', hfold, hwithin, hall⟩ := ih hl.2 (hleft.length_eq.symm.trans hbs)
    exact ⟨bs', hfold, within_trans hleft hwithin,
      List.forall_mem_cons.mpr ⟨within_trans hright hwithin, hall⟩⟩

/-- The bounds contain those of each region. -/
theorem mergeRegions_contains (An : Analyzer) (env : Intervals Var) {n : ℕ} {l : List Region} (hne : l ≠ [])
    (hl : ∀ r ∈ l, r.length = n) :
    ∃ bs, mergeRegions An env (l.map some) = .ok (some bs) ∧
      ∀ r ∈ l, List.Forall₂ Within (r.map (An.constIntBound env)) bs := by
  obtain ⟨r, l, rfl⟩ := List.exists_cons_of_ne_nil hne
  rw [List.forall_mem_cons] at hl
  have hlength : (r.map (An.constIntBound env)).length = n := by rw [List.length_map, hl.1]
  obtain ⟨bs, hfold, hwithin, hall⟩ := foldl_mergeRegion An env hl.2 hlength
  refine ⟨bs, ?_, List.forall_mem_cons.mpr ⟨hwithin, hall⟩⟩
  rw [mergeRegions_map_some]
  exact congrArg Except.ok hfold

/-! ## The path -/

/-- The buffers on a path, but for its end, are read by blocks that the target needs. -/
theorem findPathNext_needed (hchain : Chain deps t rank) {ds : List Statement}
    (hds : ∀ d ∈ ds, d ∈ deps) {current : Name} {visited path : List Name}
    (h : (findPathNext t.depName ds current visited).2 = some path) :
    path ≠ [] ∧ Needed deps t current ∧ ∀ y ∈ path.dropLast, Needed deps t y := by
  induction ds generalizing current visited path with
  | nil => cases h
  | cons dep ds ih =>
    rw [List.forall_mem_cons] at hds
    rw [findPathNext] at h
    by_cases hreads : current ∈ dep.inputBuffers
    · rw [if_pos hreads] at h
      dsimp only at h
      by_cases htarget : dep.depName = t.depName
      · rw [if_pos htarget] at h
        obtain rfl := Option.some.inj h
        obtain rfl := hchain.eq_of_depName hds.1 hchain.mem htarget
        exact ⟨List.cons_ne_nil _ _, ⟨dep, .target, hreads⟩, nofun⟩
      · rw [if_neg htarget] at h
        by_cases hvisited : dep.depName ∈ visited
        · rw [if_pos hvisited] at h
          exact ih hds.2 h
        · rw [if_neg hvisited] at h
          cases hsub : findPathNext t.depName ds dep.depName (dep.depName :: visited) with
          | mk visited' sub =>
            rw [hsub] at h
            cases sub with
            | none => exact ih hds.2 h
            | some path' =>
              obtain rfl := Option.some.inj h
              obtain ⟨hne, hneeded, hrest⟩ := ih hds.2 (congrArg Prod.snd hsub)
              obtain ⟨c, hc, hreads'⟩ := hneeded
              refine ⟨List.cons_ne_nil _ _, ⟨dep, hc.step hds.1 hreads', hreads⟩, ?_⟩
              rw [List.dropLast_cons_of_ne_nil hne]
              exact List.forall_mem_cons.mpr ⟨⟨c, hc, hreads'⟩, hrest⟩
    · rw [if_neg hreads] at h
      exact ih hds.2 h

/-- The buffers between a buffer and the target. -/
def between (deps : List Statement) (t : Statement) (name : Name) : List Name :=
  (findPathFromSource deps name t.depName).tail.dropLast

theorem needed_of_mem_between (hchain : Chain deps t rank) {name y : Name}
    (hy : y ∈ between deps t name) : Needed deps t y := by
  rw [between, findPathFromSource] at hy
  split at hy
  · cases hy
  · cases hpath : findPathNext t.depName deps name [name] with
    | mk visited sub =>
      rw [hpath] at hy
      cases sub with
      | none => cases hy
      | some path =>
        exact (findPathNext_needed hchain (fun _ => id) (congrArg Prod.snd hpath)).2.2 y hy

/-! ## Replaced regions -/

/-- The number of dimensions in the only region of a buffer. -/
def soleLength (mapping : Mapping) (name : Name) : Option ℕ :=
  match mapping name with
  | some [some region] => some region.length
  | _ => none

/-- The last buffer with one region and as many dimensions, before the first with one region and
another number of dimensions. -/
def standIn (mapping : Mapping) (n : ℕ) (names : List Name) : Option Name :=
  ((names.takeWhile fun y => (soleLength mapping y).all (· = n)).filter fun y =>
    (soleLength mapping y).isSome).getLast?

theorem standIn_spec {mapping : Mapping} {n : ℕ} {names : List Name} {y : Name}
    (h : standIn mapping n names = some y) : y ∈ names ∧ soleLength mapping y = some n := by
  obtain ⟨hmem, hsome⟩ := List.mem_filter.mp (List.mem_of_getLast? h)
  obtain ⟨m, hm⟩ := Option.isSome_iff_exists.mp hsome
  have hall := List.all_eq_true.mp List.all_takeWhile y hmem
  rw [hm, Option.all_some] at hall
  exact ⟨(List.takeWhile_prefix _).subset hmem, by rw [hm, of_decide_eq_true hall]⟩

theorem soleLength_lift_of_ne {y : Name} {l : List Region} (hy : f y = some l)
    (hl : l.length ≠ 1) : soleLength (lift f) y = none := by
  rw [soleLength, lift, hy]
  rcases l with _ | ⟨r, _ | ⟨q, l⟩⟩
  · rfl
  · exact absurd rfl hl
  · rfl

/-- What a single region is replaced with. -/
def afterReplacing (f : Name → Option (List Region)) (regions : List Region) (bind : Option Name) :
    Option Name → List (Option Region) × Option Name
  | some y => (((f y).getD []).map some, some y)
  | none => (regions.map some, bind)

theorem replaceRegions_single {names : List Name} (hnames : ∀ y ∈ names, ∃ l, f y = some l)
    (r : Region) (bind : Option Name) :
    replaceRegions (lift f) names ([some r], bind) =
      .ok (afterReplacing f [r] bind (standIn (lift f) r.length names)) := by
  induction names generalizing r bind with
  | nil => rfl
  | cons y names ih =>
    rw [List.forall_mem_cons] at hnames
    obtain ⟨l, hl⟩ := hnames.1
    have hlift : lift f y = some (l.map some) := by rw [lift, hl, Option.map_some]
    rw [replaceRegions, hlift]
    dsimp only
    by_cases hone : l.length = 1
    · obtain ⟨q, rfl⟩ := List.length_eq_one_iff.mp hone
      have hsole : soleLength (lift f) y = some q.length := by
        rw [soleLength, hlift]
        rfl
      rw [if_neg (by simp)]
      by_cases hlength : q.length = r.length
      · have hstand : standIn (lift f) r.length (y :: names) =
            some ((standIn (lift f) r.length names).getD y) := by
          rw [standIn, List.takeWhile_cons_of_pos (by rw [hsole, hlength]; simp),
            List.filter_cons_of_pos (by rw [hsole]; rfl), List.getLast?_cons]
          rfl
        rw [hstand]
        simp only [List.map_cons, List.map_nil, ne_eq, hlength, not_true_eq_false, if_false]
        rw [ih hnames.2, hlength]
        cases standIn (lift f) r.length names with
        | none => simp [afterReplacing, hl]
        | some y' => rfl
      · have hstand : standIn (lift f) r.length (y :: names) = none := by
          rw [standIn, List.takeWhile_cons_of_neg (by rw [hsole]; simpa using hlength)]
          rfl
        rw [hstand]
        simp only [List.map_cons, List.map_nil, ne_eq, hlength, not_false_eq_true, if_true]
        rfl
    · have hstand : standIn (lift f) r.length (y :: names) = standIn (lift f) r.length names := by
        have hsole := soleLength_lift_of_ne hl hone
        rw [standIn, List.takeWhile_cons_of_pos (by rw [hsole]; rfl),
          List.filter_cons_of_neg (by rw [hsole]; simp)]
        rfl
      rw [if_pos (.inr (by rwa [List.length_map])), hstand]
      exact ih hnames.2 r bind

theorem replaceRegions_of_length_ne {names : List Name} (hnames : ∀ y ∈ names, ∃ l, f y = some l)
    {l : List Region} (hl : l.length ≠ 1) (bind : Option Name) :
    replaceRegions (lift f) names (l.map some, bind) = .ok (l.map some, bind) := by
  induction names with
  | nil => rfl
  | cons y names ih =>
    rw [List.forall_mem_cons] at hnames
    obtain ⟨m, hm⟩ := hnames.1
    have hlift : lift f y = some (m.map some) := by rw [lift, hm, Option.map_some]
    rw [replaceRegions, hlift]
    dsimp only
    rw [if_pos, ih hnames.2]
    rw [List.length_map, List.length_map]
    omega

end TileLangNpuir.Carver.ShapeInference
