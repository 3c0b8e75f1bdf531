import TileLangNpuir.Carver.ShapeExtents

/-!
# Extents cover reads

On a regular chain the extents cover what is read, unless they are those of another buffer whose
reads are not spread as wide.
-/

namespace TileLangNpuir.Carver.ShapeInference

variable {An : Analyzer} {deps : List Statement} {t : Statement} {rank : Name → ℕ}
  {tile : List ℕ} {rstep : ℕ → Option ℕ} {f : Name → Option (List Region)} {name y : Name}

/-- The extents of a buffer come from the only region of another one. -/
def StandsIn (An : Analyzer) (deps : List Statement) (t : Statement) (name y : Name) : Prop :=
  ∃ vars mapping n, constructDependencyTarget An deps t.depName = .ok (vars, mapping) ∧
    soleLength mapping name = some n ∧ standIn mapping n (between deps t name) = some y

/-- In every dimension, the reads of `y` are spread as wide as those of a buffer. -/
def AsWide (deps : List Statement) (t : Statement) (tile : List ℕ) (rstep : ℕ → Option ℕ)
    (name y : Name) : Prop :=
  ∀ k idx idx', Reads deps t tile rstep name idx → Reads deps t tile rstep name idx' →
    ∃ jdx jdx', Reads deps t tile rstep y jdx ∧ Reads deps t tile rstep y jdx' ∧
      (keep deps name idx).getD k 0 - (keep deps name idx').getD k 0 ≤
        (keep deps y jdx).getD k 0 - (keep deps y jdx').getD k 0

/-- The reads of a buffer are the values of a region. -/
structure ReadsExactly (deps : List Statement) (t : Statement) (tile : List ℕ)
    (rstep : ℕ → Option ℕ) (name : Name) (r : Region) : Prop where
  sound : ∀ idx, Reads deps t tile rstep name idx →
    ∃ τ, (bounds deps t.spatialAxis tile rstep).Contains τ ∧ values τ r = keep deps name idx
  complete : ∀ τ, (bounds deps t.spatialAxis tile rstep).Contains τ →
    ∃ idx, Reads deps t tile rstep name idx ∧ values τ r = keep deps name idx

theorem readsExactly (hchain : Chain deps t rank) (htile : TileOf t tile rstep)
    (hreg : Regular An deps t) (hf : Mapped An deps t rank f) (hname : Needed deps t name)
    {r : Region} (hr : f name = some [r]) : ReadsExactly deps t tile rstep name r := by
  refine ⟨fun idx hidx => ?_, ?_⟩
  · obtain ⟨l, r', τ, hl, hr', hτ, hvalue⟩ := hidx.exists_region hchain htile hreg hf
    obtain rfl := Option.some.inj (hr.symm.trans hl)
    obtain rfl := List.mem_singleton.mp hr'
    exact ⟨τ, hτ, hvalue⟩
  · obtain ⟨l, r', hl, hr', hall⟩ := hname.exists_region hchain htile hreg hf
    obtain rfl := Option.some.inj (hr.symm.trans hl)
    obtain rfl := List.mem_singleton.mp hr'
    exact hall

/-! ## Widths -/

section

variable {env : Intervals Var}

/-- The distance of the bounds. -/
def width (An : Analyzer) (env : Intervals Var) (e : PrimExpr) : ℤ :=
  (An.constIntBound env e).2 - (An.constIntBound env e).1

theorem sub_le_width {τ τ' : Var → ℤ} (henv : env.Nonempty) (hτ : env.Contains τ)
    (hτ' : env.Contains τ') (e : PrimExpr) : e.eval τ - e.eval τ' ≤ width An env e :=
  sub_le_sub ((An.isGreatest env henv e).2 ⟨τ, hτ, rfl⟩) ((An.isLeast env henv e).2 ⟨τ', hτ', rfl⟩)

theorem exists_sub_eq_width (An : Analyzer) (henv : env.Nonempty) (e : PrimExpr) :
    ∃ τ τ', env.Contains τ ∧ env.Contains τ' ∧ e.eval τ - e.eval τ' = width An env e := by
  obtain ⟨τ, hτ, hmax⟩ := (An.isGreatest env henv e).1
  obtain ⟨τ', hτ', hmin⟩ := (An.isLeast env henv e).1
  exact ⟨τ, τ', hτ, hτ', by rw [hmax, hmin, width]⟩

end

theorem getD_values (τ : Var → ℤ) {r : Region} {k : ℕ} (h : k < r.length) :
    (values τ r).getD k 0 = r[k].eval τ := by
  rw [values, List.getD_eq_getElem?_getD, List.getElem?_map, List.getElem?_eq_getElem h]
  rfl

/-- Widths are compared dimension by dimension. -/
def NoWider (An : Analyzer) (env : Intervals Var) (r q : Region) : Prop :=
  ∀ k (hr : k < r.length) (hq : k < q.length), width An env r[k] ≤ width An env q[k]

theorem asWide_iff (An : Analyzer) (hchain : Chain deps t rank) (htile : TileOf t tile rstep)
    {r q : Region} (hr : ReadsExactly deps t tile rstep name r) (hq : ReadsExactly deps t tile rstep y q)
    (hlength : q.length = r.length) :
    AsWide deps t tile rstep name y ↔ NoWider An (bounds deps t.spatialAxis tile rstep) r q := by
  have henv := bounds_nonempty hchain htile
  refine ⟨fun h k hkr hkq => ?_, fun h k idx idx' hidx hidx' => ?_⟩
  · obtain ⟨τ, τ', hτ, hτ', hwidth⟩ := exists_sub_eq_width An henv r[k]
    obtain ⟨idx, hidx, hvalue⟩ := hr.complete τ hτ
    obtain ⟨idx', hidx', hvalue'⟩ := hr.complete τ' hτ'
    obtain ⟨jdx, jdx', hjdx, hjdx', hle⟩ := h k idx idx' hidx hidx'
    obtain ⟨μ, hμ, hμvalue⟩ := hq.sound jdx hjdx
    obtain ⟨μ', hμ', hμvalue'⟩ := hq.sound jdx' hjdx'
    rw [← hvalue, ← hvalue', ← hμvalue, ← hμvalue', getD_values τ hkr, getD_values τ' hkr,
      getD_values μ hkq, getD_values μ' hkq] at hle
    calc width An _ r[k] = r[k].eval τ - r[k].eval τ' := hwidth.symm
      _ ≤ q[k].eval μ - q[k].eval μ' := hle
      _ ≤ width An _ q[k] := sub_le_width henv hμ hμ' q[k]
  · obtain ⟨τ, hτ, hvalue⟩ := hr.sound idx hidx
    obtain ⟨τ', hτ', hvalue'⟩ := hr.sound idx' hidx'
    rw [← hvalue, ← hvalue']
    by_cases hk : k < r.length
    · have hkq : k < q.length := hlength ▸ hk
      obtain ⟨μ, μ', hμ, hμ', hwidth⟩ := exists_sub_eq_width An henv q[k]
      obtain ⟨jdx, hjdx, hμvalue⟩ := hq.complete μ hμ
      obtain ⟨jdx', hjdx', hμvalue'⟩ := hq.complete μ' hμ'
      refine ⟨jdx, jdx', hjdx, hjdx', ?_⟩
      rw [← hμvalue, ← hμvalue', getD_values τ hk, getD_values τ' hk, getD_values μ hkq,
        getD_values μ' hkq, hwidth]
      exact (sub_le_width henv hτ hτ' r[k]).trans (h k hk hkq)
    · obtain ⟨jdx, hjdx, -⟩ := hq.complete τ hτ
      refine ⟨jdx, jdx, hjdx, hjdx, ?_⟩
      have hout : ∀ μ : Var → ℤ, (values μ r).getD k 0 = 0 := fun μ => by
        rw [List.getD_eq_getElem?_getD, List.getElem?_eq_none (by rw [length_values]; omega)]
        rfl
      rw [hout, hout, sub_self, sub_self]

/-! ## Boxes -/

/-- The extents of bounds. -/
def extentsOf (bs : List (ℤ × ℤ)) : List ℤ := bs.map fun c => c.2 - c.1 + 1

/-- Bounds that contain what is read give extents that cover it. -/
theorem covers_of_contains {bs : List (ℤ × ℤ)}
    (h : ∀ idx, Reads deps t tile rstep name idx →
      List.Forall₂ (fun i b => b.1 ≤ i ∧ i ≤ b.2) (keep deps name idx) bs) :
    Covers deps t tile rstep name (extentsOf bs) := by
  refine ⟨bs.map (·.1), by rw [extentsOf, List.length_map, List.length_map], fun idx hidx => ?_⟩
  rw [extentsOf, List.zip_map', List.forall₂_map_right_iff]
  refine (h idx hidx).imp fun i b hib => ⟨hib.1, ?_⟩
  dsimp only
  omega

/-- Values lie within the bounds of a region. -/
theorem values_within {env : Intervals Var} (henv : env.Nonempty) {τ : Var → ℤ}
    (hτ : env.Contains τ) {r : Region} {bs : List (ℤ × ℤ)}
    (h : List.Forall₂ Within (r.map (An.constIntBound env)) bs) :
    List.Forall₂ (fun i b => b.1 ≤ i ∧ i ≤ b.2) (values τ r) bs := by
  rw [List.forall₂_map_left_iff] at h
  rw [values, List.forall₂_map_left_iff]
  refine h.imp fun e b heb => ⟨heb.1.trans ?_, le_trans ?_ heb.2⟩
  · exact (An.isLeast env henv e).2 ⟨τ, hτ, rfl⟩
  · exact (An.isGreatest env henv e).2 ⟨τ, hτ, rfl⟩

/-- The extents of another region cover the values of a region that is no wider. -/
theorem covers_iff_noWider (hchain : Chain deps t rank) (htile : TileOf t tile rstep)
    {r q : Region} (hr : ReadsExactly deps t tile rstep name r) (hlength : q.length = r.length) :
    Covers deps t tile rstep name
        (extentsOf (q.map (An.constIntBound (bounds deps t.spatialAxis tile rstep)))) ↔
      NoWider An (bounds deps t.spatialAxis tile rstep) r q := by
  have henv := bounds_nonempty hchain htile
  refine ⟨fun ⟨corner, hcorner, h⟩ k hkr hkq => ?_, fun h => ?_⟩
  · obtain ⟨τ, τ', hτ, hτ', hwidth⟩ := exists_sub_eq_width An henv r[k]
    obtain ⟨idx, hidx, hvalue⟩ := hr.complete τ hτ
    obtain ⟨idx', hidx', hvalue'⟩ := hr.complete τ' hτ'
    have hin := (List.forall₂_iff_get.mp (hvalue ▸ h idx hidx)).2 k
    have hin' := (List.forall₂_iff_get.mp (hvalue' ▸ h idx' hidx')).2 k
    simp only [extentsOf, List.length_map] at hcorner
    simp only [values, extentsOf, List.get_eq_getElem, List.length_map, List.length_zip,
      List.getElem_zip, List.getElem_map] at hin hin'
    have hlt := (hin hkr (by omega)).2
    have hle := (hin' hkr (by omega)).1
    rw [← hwidth, width]
    omega
  · refine ⟨r.map fun e => (An.constIntBound (bounds deps t.spatialAxis tile rstep) e).1,
      by simp [extentsOf, hlength], fun idx hidx => ?_⟩
    obtain ⟨τ, hτ, hvalue⟩ := hr.sound idx hidx
    rw [← hvalue, List.forall₂_iff_get]
    refine ⟨by simp [extentsOf, values, hlength], fun k hk hk' => ?_⟩
    rw [length_values] at hk
    have hkq : k < q.length := hlength ▸ hk
    have hwider := h k hk hkq
    have hleast := (An.isLeast _ henv r[k]).2 ⟨τ, hτ, rfl⟩
    have hgreatest := (An.isGreatest _ henv r[k]).2 ⟨τ, hτ, rfl⟩
    simp only [values, extentsOf, List.get_eq_getElem, List.getElem_zip, List.getElem_map]
    rw [width, width] at hwider
    exact ⟨hleast, by omega⟩

/-! ## One buffer -/

theorem finalRegions_eq (mapping : Mapping) (regions : List (Option Region)) :
    finalRegions deps t.depName mapping name regions =
      replaceRegions mapping (between deps t name) (regions, none) := by
  unfold finalRegions between
  dsimp only
  generalize findPathFromSource deps name t.depName = path
  rcases path with _ | ⟨_, _ | ⟨_, _ | ⟨_, _⟩⟩⟩
  · rfl
  · rfl
  · rfl
  · exact if_pos (by simp)

theorem exists_of_mem_between (name : Name) (hchain : Chain deps t rank)
    (htile : TileOf t tile rstep) (hreg : Regular An deps t) (hf : Mapped An deps t rank f) :
    ∀ y ∈ between deps t name, ∃ l, f y = some l := by
  intro y hy
  obtain ⟨l, -, hl, -⟩ := (needed_of_mem_between hchain hy).exists_region hchain htile hreg hf
  exact ⟨l, hl⟩

/-- A buffer gets its extents from its own regions, or from those of the buffer that stands in. -/
theorem finalRegions_lift (hchain : Chain deps t rank) (htile : TileOf t tile rstep)
    (hreg : Regular An deps t) (hf : Mapped An deps t rank f) {l : List Region}
    (hl : f name = some l) :
    ∃ l' bind, finalRegions deps t.depName (lift f) name (l.map some) = .ok (l'.map some, bind) ∧
      ((l' = l ∧ ∀ n, soleLength (lift f) name = some n →
          standIn (lift f) n (between deps t name) = none) ∨
        ∃ r q y, l = [r] ∧ l' = [q] ∧ f y = some [q] ∧ q.length = r.length ∧ ∀ n y',
          soleLength (lift f) name = some n ∧
            standIn (lift f) n (between deps t name) = some y' ↔ n = r.length ∧ y' = y) := by
  have hnames := exists_of_mem_between name hchain htile hreg hf
  rw [finalRegions_eq]
  by_cases hone : l.length = 1
  · obtain ⟨r, rfl⟩ := List.length_eq_one_iff.mp hone
    have hsole : soleLength (lift f) name = some r.length := by
      rw [soleLength, lift, hl]
      rfl
    have hrun := replaceRegions_single hnames r none
    cases hstand : standIn (lift f) r.length (between deps t name) with
    | none =>
      rw [hstand] at hrun
      refine ⟨[r], none, hrun, .inl ⟨rfl, fun n hn => ?_⟩⟩
      obtain rfl := Option.some.inj (hsole.symm.trans hn)
      exact hstand
    | some y =>
      rw [hstand] at hrun
      obtain ⟨hy, hysole⟩ := standIn_spec hstand
      obtain ⟨m, hm⟩ := hnames y hy
      have hone' : m.length = 1 := by
        by_contra hne
        rw [soleLength_lift_of_ne hm hne] at hysole
        cases hysole
      obtain ⟨q, rfl⟩ := List.length_eq_one_iff.mp hone'
      have hq : q.length = r.length := by
        rw [soleLength, lift, hm] at hysole
        exact Option.some.inj hysole
      refine ⟨[q], some y, ?_, .inr ⟨r, q, y, rfl, rfl, hm, hq, fun n y' => ⟨?_, ?_⟩⟩⟩
      · rw [List.map_singleton, hrun, afterReplacing, hm]
        rfl
      · rintro ⟨hn, hy'⟩
        obtain rfl := Option.some.inj (hsole.symm.trans hn)
        exact ⟨rfl, Option.some.inj (hy'.symm.trans hstand)⟩
      · rintro ⟨rfl, rfl⟩
        exact ⟨hsole, hstand⟩
  · refine ⟨l, none, replaceRegions_of_length_ne hnames hone none, .inl ⟨rfl, fun n hn => ?_⟩⟩
    rw [soleLength_lift_of_ne hl hone] at hn
    cases hn

theorem inferName_of_final {env : Intervals Var} {l l' : List Region} {bind : Option Name}
    {result : Option (List (ℤ × ℤ))}
    (hfinal : finalRegions deps t.depName (lift f) name (l.map some) = .ok (l'.map some, bind))
    (hmerge : mergeRegions An env (l'.map some) = .ok result) :
    inferName An deps t.depName env (lift f) name (l.map some) =
      .ok (result.map extentsOf, bind.isSome) := by
  rw [inferName, hfinal]
  change (mergeRegions An env (l'.map some) >>= _) = _
  rw [hmerge]
  rfl

/-- A buffer that the tile needs has extents. They cover the reads if a buffer that stands in is
read as wide. -/
theorem inferName_needed (hchain : Chain deps t rank) (htile : TileOf t tile rstep)
    (hreg : Regular An deps t) (hf : Mapped An deps t rank f)
    (hrun : constructDependencyTarget An deps t.depName = .ok (t.spatialAxis, lift f))
    (hname : Needed deps t name) :
    ∃ l extents b, f name = some l ∧
      inferName An deps t.depName (bounds deps t.spatialAxis tile rstep) (lift f) name
        (l.map some) = .ok (some extents, b) ∧
      (Covers deps t tile rstep name extents ↔
        ∀ y, StandsIn An deps t name y → AsWide deps t tile rstep name y) := by
  have henv := bounds_nonempty hchain htile
  obtain ⟨l, r₀, hl, hr₀, -⟩ := hname.exists_region hchain htile hreg hf
  have hsized := hf.sized name hname l hl
  have hstands : ∀ y, StandsIn An deps t name y ↔ ∃ n, soleLength (lift f) name = some n ∧
      standIn (lift f) n (between deps t name) = some y := by
    intro y
    refine ⟨fun ⟨vars, mapping, n, hcons, hy⟩ => ?_, fun ⟨n, hy⟩ => ⟨_, _, n, hrun, hy⟩⟩
    obtain ⟨rfl, rfl⟩ := Prod.mk.inj (Except.ok.inj (hrun.symm.trans hcons))
    exact ⟨n, hy⟩
  obtain ⟨l', bind, hfinal, ⟨rfl, hnone⟩ | ⟨r, q, y, rfl, rfl, hy, hlength, hstand⟩⟩ :=
    finalRegions_lift hchain htile hreg hf hl
  · -- the hull of its own regions
    obtain ⟨bs, hmerge, hall⟩ := mergeRegions_contains An
      (bounds deps t.spatialAxis tile rstep) (List.ne_nil_of_mem hr₀) hsized
    refine ⟨l', extentsOf bs, bind.isSome, hl, inferName_of_final hfinal hmerge, ?_⟩
    refine iff_of_true (covers_of_contains fun idx hidx => ?_) fun y hstandsIn => ?_
    · obtain ⟨m, r, τ, hm, hr, hτ, hvalue⟩ := hidx.exists_region hchain htile hreg hf
      obtain rfl := Option.some.inj (hl.symm.trans hm)
      rw [← hvalue]
      exact values_within henv hτ (hall r hr)
    · obtain ⟨n, hn, hsome⟩ := (hstands y).mp hstandsIn
      rw [hnone n hn] at hsome
      cases hsome
  · -- the bounds of the region that stands in
    have hmerge := mergeRegions_map_some An (bounds deps t.spatialAxis tile rstep) [q]
    refine ⟨[r], _, bind.isSome, hl, inferName_of_final hfinal hmerge, ?_⟩
    have hsome := (hstand r.length y).mpr ⟨rfl, rfl⟩
    have hyneeded := needed_of_mem_between hchain (standIn_spec hsome.2).1
    have hexact := readsExactly hchain htile hreg hf hname hl
    have hyexact := readsExactly hchain htile hreg hf hyneeded hy
    rw [covers_iff_noWider hchain htile hexact hlength,
      ← asWide_iff An hchain htile hexact hyexact hlength]
    refine ⟨fun h y' hy' => ?_, fun h => h y ((hstands y).mpr ⟨r.length, hsome⟩)⟩
    obtain ⟨n, hn⟩ := (hstands y').mp hy'
    rw [((hstand n y').mp hn).2]
    exact h

/-! ## All buffers -/

/-- `infer` returns the extents of the buffers that are asked for. -/
theorem infer_spec (hchain : Chain deps t rank) (htile : TileOf t tile rstep)
    (hreg : Regular An deps t) (hf : Mapped An deps t rank f)
    (hrun : constructDependencyTarget An deps t.depName = .ok (t.spatialAxis, lift f))
    (targets : Option (List Name)) :
    ∃ results bind, infer An deps t.depName tile rstep targets = .ok (results, bind) ∧
      ∀ name l extents b, name ∈ bufferNames deps → targets.all (name ∈ ·) = true →
        f name = some l →
        inferName An deps t.depName (bounds deps t.spatialAxis tile rstep) (lift f) name
          (l.map some) = .ok (some extents, b) →
        ∀ extents', (name, extents') ∈ results ↔ extents' = extents := by
  have hone : ∀ name, ∃ x, inferBuffer An deps t.depName (bounds deps t.spatialAxis tile rstep)
      (lift f) name = .ok (name, x) := by
    intro name
    rw [inferBuffer]
    cases hl : f name with
    | none =>
      rw [show lift f name = none by rw [lift, hl]; rfl]
      exact ⟨_, rfl⟩
    | some l =>
      obtain ⟨l', bind, hfinal, -⟩ := finalRegions_lift hchain htile hreg hf hl
      have hname := inferName_of_final hfinal
        (mergeRegions_map_some An (bounds deps t.spatialAxis tile rstep) l')
      rw [show lift f name = some (l.map some) by rw [lift, hl]; rfl]
      dsimp only
      rw [hname]
      exact ⟨_, rfl⟩
  choose g hg using hone
  let names := (bufferNames deps).filter fun name => targets.all (name ∈ ·)
  let results := names.map fun name => (name, g name)
  have hinfer : infer An deps t.depName tile rstep targets =
      .ok (results.filterMap fun x => x.2.1.map fun e => (x.1, e),
        (results.filter fun x => x.2.2).map (·.1)) := by
    rw [infer, hrun]
    change (names.mapM (inferBuffer _ _ _ _ _) >>= _) = _
    rw [mapM_eq_ok fun name _ => hg name]
    rfl
  refine ⟨_, _, hinfer, fun name l extents b hmem htargets hl hname extents' => ?_⟩
  have hgname : g name = (some extents, b) := by
    have := hg name
    rw [inferBuffer, show lift f name = some (l.map some) by rw [lift, hl]; rfl] at this
    dsimp only at this
    rw [hname] at this
    exact (Prod.mk.inj (Except.ok.inj this)).2.symm
  rw [List.mem_filterMap]
  refine ⟨?_, fun heq => ?_⟩
  · rintro ⟨p, hp, heq⟩
    obtain ⟨name', -, rfl⟩ := List.mem_map.mp hp
    dsimp only at heq
    cases hg' : (g name').1 with
    | none =>
      rw [hg'] at heq
      cases heq
    | some e =>
      rw [hg'] at heq
      obtain ⟨rfl, rfl⟩ := Prod.mk.inj (Option.some.inj heq)
      rw [hgname] at hg'
      exact (Option.some.inj hg').symm
  · refine ⟨(name, g name), List.mem_map_of_mem (List.mem_filter.mpr ⟨hmem, htargets⟩), ?_⟩
    rw [hgname, heq]
    rfl

theorem Needed.mem_bufferNames (hchain : Chain deps t rank) (h : Needed deps t name) :
    name ∈ bufferNames deps := by
  obtain ⟨c, hc, hreads⟩ := h
  refine List.mem_dedup.mpr (List.mem_flatMap.mpr ⟨c, hc.mem hchain, ?_⟩)
  exact List.mem_append_left _ hreads

/-- An analyzer that simplifies nothing and reverses nothing. -/
def rangeAnalyzer : Analyzer where
  simplify := id
  constIntBound := Affine.range
  detectIterMap := fun _ _ => none
  eval_simplify := fun _ _ => rfl
  isLeast := fun _ h => Affine.isLeast_range h
  isGreatest := fun _ h => Affine.isGreatest_range h

/-- `window[i] = input[i] + input[i + 1]`. -/
def window : Statement where
  depName := 1
  spatialAxis := [0]
  reduceAxis := []
  inputBuffers := [0]
  loads := [(0, [.var 0]), (0, [.add (.var 0) (.const 1)])]
  writes := [.var 0]
  nodup := by decide

/-- `sums[j] += window[j + k]`. -/
def sums : Statement where
  depName := 2
  spatialAxis := [1]
  reduceAxis := [⟨2, 2, 0, 8⟩]
  inputBuffers := [1]
  loads := [(2, [.var 1]), (1, [.add (.var 1) (.var 2)])]
  writes := [.var 1]
  nodup := by decide

theorem sums_chain : Chain [window, sums] sums fun _ => 1 where
  mem := by simp
  names := by decide
  ordered := by decide
  noSelf := by decide
  nodup := by decide
  disjoint := by decide
  vars := by decide
  loaded := by decide
  rank_loads := by decide
  rank_writes := by decide
  extent_pos := by decide
  used := by
    intro a ha
    rcases List.mem_cons.mp ha with rfl | ha
    · exact .inr (.inr ⟨sums, by simp, by decide⟩)
    · exact .inl (List.mem_singleton.mp ha)

theorem sums_tile : TileOf sums [4] fun _ => some 4 where
  length := rfl
  pos := by decide
  step_pos := by
    rintro _ r hr
    obtain rfl := Option.some.inj hr
    decide

theorem sums_regular : Regular rangeAnalyzer [window, sums] sums where
  zeros := by
    have hzeros : ∀ dep ∈ [window, sums], ∀ load ∈ dep.inputLoads,
        dropZeros load.2 = keep [window, sums] load.1 load.2 := by decide
    exact fun dep hdep load hload _ => hzeros dep hdep load hload
  writes := by
    intro b hb hneeded
    rcases List.mem_cons.mp hb with rfl | hb
    · decide
    · obtain rfl := List.mem_singleton.mp hb
      exact absurd rfl (hneeded.before sums_chain).1
  writes_zero := by
    intro b hb hneeded
    rcases List.mem_cons.mp hb with rfl | hb
    · decide
    · obtain rfl := List.mem_singleton.mp hb
      exact absurd rfl (hneeded.before sums_chain).1
  reverse := by
    -- no block reads the last one
    have hbefore : ∀ dep ∈ [window, sums], ∀ name ∈ dep.inputBuffers, name ≠ sums.depName ∧
        ∀ b ∈ [window, sums], b.depName = name →
          position [window, sums] name ≤ position [window, sums] sums.depName := by decide
    intro dep hdep name hname hafter
    obtain ⟨hne, hpos⟩ := hbefore dep hdep name hname
    rcases hafter with heq | hfollows
    · exact absurd heq hne
    · obtain ⟨b, hb, hbname⟩ := hfollows.exists_mem
      exact absurd (hfollows.position_lt sums_chain) (not_lt.mpr (hpos b hb hbname))

/-- `output[i, j] = input[i, 0] + input[i, j]`. -/
def pairs : Statement where
  depName := 1
  spatialAxis := [0, 1]
  reduceAxis := []
  inputBuffers := [0]
  loads := [(0, [.var 0, .const 0]), (0, [.var 0, .var 1])]
  writes := [.var 0, .var 1]
  nodup := by decide

/-- The second load is taken for the first, whose region has one dimension. -/
theorem infer_pairs (An : Analyzer) (tile : List ℕ) :
    ∃ e, infer An [pairs] pairs.depName tile (fun _ => none) (some [0]) = .ok ([(0, [e])], []) := by
  obtain ⟨vars, mapping, r, hrun, hmap⟩ : ∃ vars mapping r,
      constructDependencyTarget An [pairs] pairs.depName = .ok (vars, mapping) ∧
        mapping 0 = some [some [r]] := ⟨_, _, _, rfl, rfl⟩
  have hnames : ((bufferNames [pairs]).filter fun name => (some [0]).all (name ∈ ·)) = [0] := by
    decide
  have hbuffer : inferBuffer An [pairs] pairs.depName
      (bounds [pairs] vars tile fun _ => none) mapping 0 = .ok (0, some (extentsOf
        [An.constIntBound (bounds [pairs] vars tile fun _ => none) r]), false) := by
    rw [inferBuffer, hmap]
    rfl
  refine ⟨width An (bounds [pairs] vars tile fun _ => none) r + 1, ?_⟩
  rw [infer, hrun]
  change (List.mapM (inferBuffer _ _ _ _ _) (List.filter _ _) >>= _) = _
  rw [hnames, List.mapM_cons, hbuffer]
  rfl

end TileLangNpuir.Carver.ShapeInference
