import TileLangNpuir.Carver.TileReads
import TileLangNpuir.Lib.Returns

/-!
# The mapping

`constructDependencyTarget` returns when the blocks after the target can be reversed. What it maps
is closed: a region of a block's output gives a region of each of its inputs for each of its loads.
-/

namespace TileLangNpuir.Carver.ShapeInference

variable {An : Analyzer} {deps : List Statement} {t : Statement} {rank : Name → ℕ}

/-- The zeros of a buffer are at the same places in all its loads, and a block writes its axes in
order in the other dimensions; a block after the target can be reversed. Of the buffers, only those
count that the tile needs. -/
structure Regular (An : Analyzer) (deps : List Statement) (t : Statement) : Prop where
  zeros : ∀ dep ∈ deps, ∀ load ∈ dep.inputLoads, Needed deps t load.1 →
    dropZeros load.2 = keep deps load.1 load.2
  writes : ∀ b ∈ deps, Needed deps t b.depName →
    keep deps b.depName b.writes = b.spatialAxis.map .var
  writes_zero : ∀ b ∈ deps, Needed deps t b.depName → ∀ k < b.writes.length,
    isKept deps b.depName k = false → b.writes[k]? = some (.const 0)
  reverse : ∀ dep ∈ deps, ∀ name ∈ dep.inputBuffers, name = t.depName ∨ Follows deps t name →
    dep.reduceAxis = [] ∧ ∃ indices inverse, dep.dependentRegion name = [indices] ∧
      An.detectIterMap dep.spatialAxis indices = some inverse

/-! ## Lists of regions -/

theorem regionIsSame_refl (r : Region) : regionIsSame r r = true := by
  induction r with
  | nil => rfl
  | cons e r ih =>
    rw [regionIsSame, List.zip_cons_cons, List.all_cons, Bool.and_eq_true]
    exact ⟨decide_eq_true rfl, ih⟩

theorem eq_of_regionIsSame {a b : Region} (h : regionIsSame a b = true)
    (hlength : a.length = b.length) : a = b := by
  induction a generalizing b with
  | nil => exact (List.length_eq_zero_iff.mp hlength.symm).symm
  | cons e a ih =>
    cases b with
    | nil => cases hlength
    | cons e' b =>
      rw [regionIsSame, List.zip_cons_cons, List.all_cons, Bool.and_eq_true] at h
      rw [of_decide_eq_true h.1, ih h.2 (Nat.succ.inj hlength)]

/-- A region is added unless one is the same. -/
def insertNew (l : List Region) (r : Region) : List Region :=
  if l.any (regionIsSame r) then l else l ++ [r]

theorem subset_insertNew (l : List Region) (r : Region) : l ⊆ insertNew l r := by
  unfold insertNew
  split
  · exact List.Subset.refl l
  · exact List.subset_append_left l [r]

theorem exists_same_insertNew (l : List Region) (r : Region) :
    ∃ x ∈ insertNew l r, regionIsSame r x = true := by
  unfold insertNew
  split
  · exact List.any_eq_true.mp ‹_›
  · exact ⟨r, List.mem_append_right l (List.mem_singleton_self r), regionIsSame_refl r⟩

theorem mem_insertNew {l : List Region} {r x : Region} (h : x ∈ insertNew l r) :
    x ∈ l ∨ x = r := by
  unfold insertNew at h
  split at h
  · exact .inl h
  · rwa [List.mem_append, List.mem_singleton] at h

theorem subset_foldl_insertNew (rs l : List Region) : l ⊆ rs.foldl insertNew l := by
  induction rs generalizing l with
  | nil => exact List.Subset.refl l
  | cons r rs ih => exact List.Subset.trans (subset_insertNew l r) (ih (insertNew l r))

theorem exists_same_foldl {rs : List Region} {r : Region} (hr : r ∈ rs) (l : List Region) :
    ∃ x ∈ rs.foldl insertNew l, regionIsSame r x = true := by
  induction rs generalizing l with
  | nil => cases hr
  | cons a rs ih =>
    rcases List.mem_cons.mp hr with rfl | hr
    · obtain ⟨x, hx, hsame⟩ := exists_same_insertNew l r
      exact ⟨x, subset_foldl_insertNew rs _ hx, hsame⟩
    · exact ih hr (insertNew l a)

theorem mem_foldl_insertNew {rs l : List Region} {x : Region} (h : x ∈ rs.foldl insertNew l) :
    x ∈ l ∨ x ∈ rs := by
  induction rs generalizing l with
  | nil => exact .inl h
  | cons r rs ih =>
    rcases ih h with h | h
    · rcases mem_insertNew h with h | rfl
      · exact .inl h
      · exact .inr List.mem_cons_self
    · exact .inr (List.mem_cons_of_mem r h)

theorem dependentRegion_eq (dep : Statement) (name : Name) : dep.dependentRegion name =
    ((dep.loads.filter fun load => load.1 = name).map fun load => dropZeros load.2).foldl
      insertNew [] := by
  rw [Statement.dependentRegion, List.foldl_map]
  rfl

/-- Every load is the same as one of the regions. -/
theorem exists_mem_dependentRegion {dep : Statement} {load : Name × List PrimExpr}
    (hload : load ∈ dep.loads) :
    ∃ region ∈ dep.dependentRegion load.1, regionIsSame (dropZeros load.2) region = true := by
  rw [dependentRegion_eq]
  refine exists_same_foldl (List.mem_map.mpr ⟨load, List.mem_filter.mpr ⟨hload, ?_⟩, rfl⟩) []
  exact decide_eq_true rfl

/-- Every region is that of a load. -/
theorem of_mem_dependentRegion {dep : Statement} {name : Name} (hname : name ∈ dep.inputBuffers)
    {region : Region} (h : region ∈ dep.dependentRegion name) :
    ∃ load ∈ dep.inputLoads, load.1 = name ∧ dropZeros load.2 = region := by
  rw [dependentRegion_eq] at h
  rcases mem_foldl_insertNew h with h | h
  · cases h
  · obtain ⟨load, hmem, heq⟩ := List.mem_map.mp h
    obtain ⟨hload, hfilter⟩ := List.mem_filter.mp hmem
    have hload1 : load.1 = name := of_decide_eq_true hfilter
    refine ⟨load, List.mem_filter.mpr ⟨hload, decide_eq_true ?_⟩, hload1, heq⟩
    rw [hload1]
    exact hname

/-! ## The loops on mappings without `None` -/

/-- A mapping all of whose regions are there. -/
def lift (f : Name → Option (List Region)) : Mapping := fun name => (f name).map (·.map some)

theorem lift_update (f : Name → Option (List Region)) (name : Name) (l : List Region) :
    Function.update (lift f) name (some (l.map some)) =
      lift (Function.update f name (some l)) := by
  funext x
  by_cases hx : x = name
  · subst hx
    rw [Function.update_self, lift, Function.update_self, Option.map_some]
  · rw [Function.update_of_ne hx, lift, lift, Function.update_of_ne hx]

theorem regionExistInList_map_some (r : Region) (l : List Region) :
    regionExistInList (some r) (l.map some) = .ok (l.any (regionIsSame r)) := by
  have hmap : (l.map some).mapM (elementIsSame r) = .ok (l.map (regionIsSame r)) := by
    rw [List.mapM_map]
    exact mapM_eq_ok fun _ _ => rfl
  rw [regionExistInList, hmap]
  change Except.ok ((l.map (regionIsSame r)).any id) = _
  rw [List.any_map]
  rfl

/-- The regions that a block gives to one of its inputs. -/
def inputRegions (An : Analyzer) (dep : Statement) (name : Name) (qs : List Region) : List Region :=
  qs.flatMap fun q => (dep.dependentRegion name).map (substRegion An dep.spatialAxis q)

theorem addRegion_lift (f : Name → Option (List Region)) (name : Name) (l : List Region)
    (r : Region) :
    addRegion (lift (Function.update f name (some l))) name r =
      .ok (lift (Function.update f name (some (insertNew l r)))) := by
  have hget : (lift (Function.update f name (some l)) name).getD [] = l.map some := by
    rw [lift, Function.update_self]
    rfl
  rw [addRegion, hget, regionExistInList_map_some]
  unfold insertNew
  cases l.any (regionIsSame r) with
  | true =>
    change Except.ok (Function.update (lift _) name (some (l.map some))) = _
    rw [lift_update, Function.update_idem]
    rfl
  | false =>
    change Except.ok (Function.update (lift _) name (some (l.map some ++ [some r]))) = _
    rw [show l.map some ++ [some r] = (l ++ [r]).map some by simp, lift_update,
      Function.update_idem]
    rfl

theorem foldlM_addRegion_lift (f : Name → Option (List Region)) (name : Name) (rs l : List Region) :
    rs.foldlM (fun mapping r => addRegion mapping name r)
      (lift (Function.update f name (some l))) =
      .ok (lift (Function.update f name (some (rs.foldl insertNew l)))) := by
  induction rs generalizing l with
  | nil => rfl
  | cons r rs ih =>
    rw [List.foldlM_cons, addRegion_lift]
    exact ih (insertNew l r)

theorem propagateInput_lift (f : Name → Option (List Region)) {name : Name}
    (hname : name ≠ t.depName) (dep : Statement) (qs : List Region) :
    propagateInput An t.depName dep (qs.map some) (lift f) name =
      .ok (lift (Function.update f name
        (some ((inputRegions An dep name qs).foldl insertNew ((f name).getD []))))) := by
  have hstart : Function.update (lift f) name (some ((lift f name).getD [])) =
      lift (Function.update f name (some ((f name).getD []))) := by
    rw [← lift_update]
    congr 1
    cases h : f name <;> simp [lift, h]
  rw [propagateInput, if_neg hname, hstart]
  generalize (f name).getD [] = l
  induction qs generalizing l with
  | nil => rfl
  | cons q qs ih =>
    have hq := foldlM_addRegion_lift f name
      ((dep.dependentRegion name).map (substRegion An dep.spatialAxis q)) l
    rw [List.foldlM_map] at hq
    rw [List.map_cons, List.foldlM_cons, inputRegions, List.flatMap_cons, List.foldl_append]
    dsimp only
    rw [hq]
    exact ih _

/-- The mapping after a block. -/
def blockStep (An : Analyzer) (t dep : Statement) (qs : List Region)
    (f : Name → Option (List Region)) : Name → Option (List Region) := fun name =>
  if name ∈ dep.inputBuffers ∧ name ≠ t.depName then
    some ((inputRegions An dep name qs).foldl insertNew ((f name).getD []))
  else f name

theorem propagateBlock_lift {f : Name → Option (List Region)} {dep : Statement} {qs : List Region}
    (h : f dep.depName = some qs) :
    propagateBlock An t.depName dep (lift f) = .ok (lift (blockStep An t dep qs f)) := by
  have hget : lift f dep.depName = some (qs.map some) := by rw [lift, h, Option.map_some]
  rw [propagateBlock, hget]
  dsimp only
  -- the inputs that were passed have their new regions
  let passed (done : List Name) : Name → Option (List Region) := fun name =>
    if name ∈ done ∧ name ≠ t.depName then
      some ((inputRegions An dep name qs).foldl insertNew ((f name).getD []))
    else f name
  have hstart : lift f = lift (passed []) :=
    congrArg lift (funext fun name => (if_neg fun hand => List.not_mem_nil hand.1).symm)
  have hstep : ∀ done a rest m, dep.inputBuffers = done ++ a :: rest → m = lift (passed done) →
      ∃ m', propagateInput An t.depName dep (qs.map some) m a = .ok m' ∧
        m' = lift (passed (done ++ [a])) := by
    rintro done a rest _ hl rfl
    have hfresh : a ∉ done := by
      have hnodup := dep.nodup
      rw [hl, List.nodup_append] at hnodup
      exact fun hmem => hnodup.2.2 a hmem a List.mem_cons_self rfl
    by_cases ha : a = t.depName
    · refine ⟨lift (passed done), by rw [propagateInput, if_pos ha], congrArg lift ?_⟩
      funext name
      by_cases hname : name = a
      · simp [passed, hname, ha]
      · simp [passed, hname]
    · refine ⟨_, propagateInput_lift (passed done) ha dep qs, congrArg lift ?_⟩
      funext name
      by_cases hname : name = a
      · subst hname
        simp [passed, hfresh, ha]
      · rw [Function.update_of_ne hname]
        simp [passed, hname]
  obtain ⟨m, hm, rfl⟩ := exists_foldlM (P := fun done m => m = lift (passed done)) hstart hstep
  exact hm

/-- What the second loop makes of a mapping `f` over some blocks. -/
structure Propagated (An : Analyzer) (t : Statement) (ds : List Statement)
    (f f' : Name → Option (List Region)) : Prop where
  grow : ∀ name l, f name = some l → ∃ l', f' name = some l' ∧ l ⊆ l'
  target : f' t.depName = f t.depName
  closed : ∀ b ∈ ds, ∀ name ∈ b.inputBuffers, name ≠ t.depName →
    ∃ qs l, f' b.depName = some qs ∧ f' name = some l ∧ ∀ q ∈ qs,
      ∀ region ∈ b.dependentRegion name, ∃ r ∈ l,
        regionIsSame (substRegion An b.spatialAxis q region) r = true
  added : ∀ name l, f' name = some l → ∀ r ∈ l, (∃ l₀, f name = some l₀ ∧ r ∈ l₀) ∨
    ∃ b ∈ ds, name ∈ b.inputBuffers ∧ ∃ region ∈ b.dependentRegion name, r.length = region.length

theorem Propagated.mapped {ds : List Statement} {f f' : Name → Option (List Region)}
    (h : Propagated An t ds f f') {name : Name} (hname : f name ≠ none) : f' name ≠ none := by
  obtain ⟨l, hl⟩ := Option.ne_none_iff_exists'.mp hname
  obtain ⟨l', hl', -⟩ := h.grow name l hl
  rw [hl']
  exact Option.some_ne_none l'

theorem length_substRegion (axVars : List Var) (q region : Region) :
    (substRegion An axVars q region).length = region.length := List.length_map ..

/-- One more block: those after it do not write what it reads. -/
theorem Propagated.cons {ds : List Statement} {b : Statement}
    {f f' : Name → Option (List Region)} (h : Propagated An t ds f f') {qs : List Region}
    (hqs : f' b.depName = some qs) (hself : b.depName ∉ b.inputBuffers)
    (hlater : ∀ c ∈ ds, c.depName ∉ b.inputBuffers) :
    Propagated An t (b :: ds) f (blockStep An t b qs f') := by
  have hgrow : ∀ name l, f' name = some l →
      ∃ l', blockStep An t b qs f' name = some l' ∧ l ⊆ l' := by
    intro name l hl
    unfold blockStep
    split
    · rw [hl]
      exact ⟨_, rfl, subset_foldl_insertNew _ l⟩
    · exact ⟨l, hl, List.Subset.refl l⟩
  have hsame : ∀ name, name ∉ b.inputBuffers → blockStep An t b qs f' name = f' name :=
    fun name hname => if_neg fun hand => hname hand.1
  refine ⟨fun name l hl => ?_, ?_, fun c hc name hname hne => ?_, fun name l hl r hr => ?_⟩
  · obtain ⟨l', hl', hsub⟩ := h.grow name l hl
    obtain ⟨l'', hl'', hsub'⟩ := hgrow name l' hl'
    exact ⟨l'', hl'', List.Subset.trans hsub hsub'⟩
  · rw [← h.target]
    exact if_neg fun hand => hand.2 rfl
  · rcases List.mem_cons.mp hc with rfl | hc
    · refine ⟨qs, _, (hsame c.depName hself).trans hqs, if_pos ⟨hname, hne⟩, ?_⟩
      intro q hq region hregion
      refine exists_same_foldl (List.mem_flatMap.mpr ⟨q, hq, ?_⟩) _
      exact List.mem_map_of_mem hregion
    · obtain ⟨qs', l, hqs', hl, hclosed⟩ := h.closed c hc name hname hne
      obtain ⟨l', hl', hsub⟩ := hgrow name l hl
      refine ⟨qs', l', (hsame c.depName (hlater c hc)).trans hqs', hl', ?_⟩
      intro q hq region hregion
      obtain ⟨r, hr, hr'⟩ := hclosed q hq region hregion
      exact ⟨r, hsub hr, hr'⟩
  · have hold : ∀ l₀, f' name = some l₀ → r ∈ l₀ → (∃ l₁, f name = some l₁ ∧ r ∈ l₁) ∨
        ∃ c ∈ b :: ds, name ∈ c.inputBuffers ∧ ∃ region ∈ c.dependentRegion name,
          r.length = region.length := by
      intro l₀ hl₀ hr₀
      rcases h.added name l₀ hl₀ r hr₀ with hfirst | ⟨c, hc, hrest⟩
      · exact .inl hfirst
      · exact .inr ⟨c, List.mem_cons_of_mem b hc, hrest⟩
    unfold blockStep at hl
    split at hl
    · rename_i hand
      obtain rfl := Option.some.inj hl
      rcases mem_foldl_insertNew hr with hr | hr
      · cases hl₀ : f' name with
        | none =>
          rw [hl₀] at hr
          cases hr
        | some l₀ =>
          rw [hl₀] at hr
          exact hold l₀ hl₀ hr
      · obtain ⟨q, -, hq⟩ := List.mem_flatMap.mp hr
        obtain ⟨region, hregion, rfl⟩ := List.mem_map.mp hq
        exact .inr ⟨b, List.mem_cons_self, hand.1, region, hregion, length_substRegion ..⟩
    · exact hold l hl hr

/-- The second loop returns if each block is mapped when its turn comes. -/
theorem propagateBlocks_lift (An : Analyzer) (f : Name → Option (List Region))
    {ds : List Statement}
    (hordered : ds.Pairwise fun a b => b.depName ∉ a.inputBuffers)
    (hself : ∀ a ∈ ds, a.depName ∉ a.inputBuffers)
    (hmapped : ∀ done b rest, ds = done ++ b :: rest → f b.depName ≠ none ∨
      ∃ c ∈ rest, b.depName ∈ c.inputBuffers ∧ b.depName ≠ t.depName) :
    ∃ f', propagateBlocks An t.depName ds (lift f) = .ok (lift f') ∧ Propagated An t ds f f' := by
  induction ds with
  | nil =>
    refine ⟨f, rfl, fun name l hl => ⟨l, hl, List.Subset.refl l⟩, rfl, nofun, ?_⟩
    exact fun name l hl r hr => .inl ⟨l, hl, hr⟩
  | cons b ds ih =>
    obtain ⟨hlater, hordered⟩ := List.pairwise_cons.mp hordered
    rw [List.forall_mem_cons] at hself
    obtain ⟨f', hrun, hprop⟩ := ih hordered hself.2 fun done c rest hds =>
      hmapped (b :: done) c rest (by rw [hds, List.cons_append])
    have hb : f' b.depName ≠ none := by
      rcases hmapped [] b ds rfl with hsome | ⟨c, hc, hreads, hne⟩
      · exact hprop.mapped hsome
      · obtain ⟨-, l, -, hl, -⟩ := hprop.closed c hc b.depName hreads hne
        rw [hl]
        exact Option.some_ne_none l
    obtain ⟨qs, hqs⟩ := Option.ne_none_iff_exists'.mp hb
    refine ⟨_, ?_, hprop.cons hqs hself.1 hlater⟩
    rw [propagateBlocks, hrun]
    exact propagateBlock_lift hqs

/-! ## The first loop -/

theorem Follows.exists_reads {name : Name} (h : Follows deps t name) :
    ∃ b ∈ deps, b.depName = name ∧
      ∃ y ∈ b.inputBuffers, y = t.depName ∨ Follows deps t y := by
  cases h with
  | target hmem hreads => exact ⟨_, hmem, rfl, _, hreads, .inl rfl⟩
  | step hprev hmem hreads => exact ⟨_, hmem, rfl, _, hreads, .inr hprev⟩

/-- What the first loop keeps: the target and what follows it are mapped. -/
structure Reversed (deps : List Statement) (t : Statement) (f : Name → Option (List Region)) :
    Prop where
  target : f t.depName = some [t.spatialAxis.map .var]
  only : ∀ name, f name ≠ none → name = t.depName ∨ Follows deps t name
  nonempty : ∀ name, f name ≠ some []

theorem reverseInput_lift (hreg : Regular An deps t) {f : Name → Option (List Region)}
    (hf : Reversed deps t f) {dep : Statement} (hdep : dep ∈ deps) {name : Name}
    (hname : name ∈ dep.inputBuffers) :
    ∃ f', reverseInput An t.depName dep (lift f) name = .ok (lift f') ∧ Reversed deps t f' ∧
      (∀ x, f x ≠ none → f' x ≠ none) ∧ (f name ≠ none → f' dep.depName ≠ none) := by
  cases hregions : f name with
  | none =>
    refine ⟨f, ?_, hf, fun _ h => h, nofun⟩
    rw [reverseInput, lift, hregions]
    rfl
  | some regions =>
    cases regions with
    | nil => exact absurd hregions (hf.nonempty name)
    | cons q qs =>
      have hsource := hf.only name (by rw [hregions]; exact Option.some_ne_none _)
      obtain ⟨hspatial, indices, inverse, hindices, hinverse⟩ := hreg.reverse dep hdep name hname hsource
      have hout : dep.makeReverse An name (some q) = .ok (some (inverse q)) := by
        rw [Statement.makeReverse, if_neg (not_not.mpr hspatial), hindices]
        dsimp only
        rw [hinverse]
      have hfollows : Follows deps t dep.depName := by
        rcases hsource with rfl | hprev
        · exact .target hdep hname
        · exact hprev.step hdep hname
      by_cases htarget : dep.depName = t.depName
      · refine ⟨f, ?_, hf, fun _ h => h, fun _ => ?_⟩
        · rw [reverseInput, lift, hregions]
          change (dep.makeReverse An name (some q) >>= _) = _
          rw [hout]
          change (if dep.depName = t.depName then _ else _) = _
          rw [if_pos htarget]
          rfl
        · rw [htarget, hf.target]
          exact Option.some_ne_none _
      · -- the output is mapped to one more region
        let old := (f dep.depName).getD []
        let f' := Function.update f dep.depName (some (insertNew old (inverse q)))
        have hself : f' dep.depName = some (insertNew old (inverse q)) := Function.update_self ..
        have hother : ∀ x, x ≠ dep.depName → f' x = f x := fun x hx => Function.update_of_ne hx ..
        refine ⟨f', ?_, ⟨?_, fun x hx => ?_, fun x hx => ?_⟩, fun x hx => ?_, fun _ => ?_⟩
        · rw [reverseInput, lift, hregions]
          change (dep.makeReverse An name (some q) >>= _) = _
          rw [hout]
          change (if dep.depName = t.depName then _ else _) = _
          rw [if_neg htarget]
          cases hdepName : f dep.depName with
          | none =>
            have hnew : insertNew old (inverse q) = [inverse q] := by
              simp [old, hdepName, insertNew]
            rw [lift, hdepName]
            change Except.ok (Function.update (lift f) dep.depName (some ([inverse q].map some))) = _
            rw [lift_update]
            simp only [f', hnew]
          | some list =>
            have hold : old = list := by simp [old, hdepName]
            rw [lift, hdepName]
            change (regionExistInList (some (inverse q)) (list.map some) >>= _) = _
            rw [regionExistInList_map_some]
            simp only [f', hold, insertNew]
            cases list.any (regionIsSame (inverse q)) with
            | true =>
              change Except.ok (lift f) = .ok (lift (Function.update f dep.depName (some list)))
              rw [← hdepName, Function.update_eq_self]
            | false =>
              change Except.ok (Function.update (lift f) dep.depName
                (some (list.map some ++ [some (inverse q)]))) = _
              rw [show list.map some ++ [some (inverse q)] = (list ++ [inverse q]).map some by simp,
                lift_update]
              rfl
        · rw [hother t.depName (Ne.symm htarget), hf.target]
        · by_cases hx' : x = dep.depName
          · exact .inr (hx' ▸ hfollows)
          · exact hf.only x (hother x hx' ▸ hx)
        · by_cases hx' : x = dep.depName
          · rw [hx', hself] at hx
            obtain ⟨y, hy, -⟩ := exists_same_insertNew old (inverse q)
            rw [Option.some.inj hx] at hy
            cases hy
          · exact hf.nonempty x (hother x hx' ▸ hx)
        · by_cases hx' : x = dep.depName
          · rw [hx', hself]
            exact Option.some_ne_none _
          · rw [hother x hx']
            exact hx
        · rw [hself]
          exact Option.some_ne_none _

/-- One block: its output is mapped if it reads something that is. -/
theorem reverseBlock_lift (hreg : Regular An deps t) {f : Name → Option (List Region)}
    (hf : Reversed deps t f) {dep : Statement} (hdep : dep ∈ deps) :
    ∃ f', dep.inputBuffers.foldlM (reverseInput An t.depName dep) (lift f) = .ok (lift f') ∧
      Reversed deps t f' ∧ (∀ x, f x ≠ none → f' x ≠ none) ∧
      ((∃ y ∈ dep.inputBuffers, f y ≠ none) → f' dep.depName ≠ none) := by
  obtain ⟨m, hm, f', rfl, hrest⟩ := exists_foldlM (l := dep.inputBuffers)
    (P := fun done m => ∃ f', m = lift f' ∧ Reversed deps t f' ∧ (∀ x, f x ≠ none → f' x ≠ none) ∧
      ((∃ y ∈ done, f y ≠ none) → f' dep.depName ≠ none))
    ⟨f, rfl, hf, fun _ h => h, fun ⟨_, hy, _⟩ => absurd hy List.not_mem_nil⟩
    (h := reverseInput An t.depName dep) (by
      rintro done a rest _ hl ⟨f₁, rfl, hf₁, hmono, hdone⟩
      have ha : a ∈ dep.inputBuffers := by rw [hl]; simp
      obtain ⟨f₂, hrun, hf₂, hmono', hmapped⟩ := reverseInput_lift hreg hf₁ hdep ha
      refine ⟨_, hrun, f₂, rfl, hf₂, fun x hx => hmono' x (hmono x hx), ?_⟩
      rintro ⟨y, hy, hne⟩
      rcases List.mem_append.mp hy with hy | hy
      · exact hmono' _ (hdone ⟨y, hy, hne⟩)
      · rw [List.mem_singleton] at hy
        exact hmapped (hy ▸ hmono y hne))
  exact ⟨f', hm, hrest⟩

/-- The first loop maps all that follows the target. -/
theorem reverseBlocks_lift (hreg : Regular An deps t) (hchain : Chain deps t rank)
    {f : Name → Option (List Region)} (hf : Reversed deps t f) :
    ∃ f', deps.foldlM (fun m dep => dep.inputBuffers.foldlM (reverseInput An t.depName dep) m)
        (lift f) = .ok (lift f') ∧ Reversed deps t f' ∧
      ∀ b ∈ deps, Follows deps t b.depName → f' b.depName ≠ none := by
  have hstep : ∀ done b rest m, deps = done ++ b :: rest →
      (∃ f', m = lift f' ∧ Reversed deps t f' ∧
        ∀ c ∈ done, Follows deps t c.depName → f' c.depName ≠ none) →
      ∃ m', b.inputBuffers.foldlM (reverseInput An t.depName b) m = .ok m' ∧
        ∃ f', m' = lift f' ∧ Reversed deps t f' ∧
          ∀ c ∈ done ++ [b], Follows deps t c.depName → f' c.depName ≠ none := by
    rintro done b rest _ hl ⟨f₁, rfl, hf₁, hdone⟩
    have hb : b ∈ deps := by rw [hl]; simp
    obtain ⟨f₂, hrun, hf₂, hmono, hmapped⟩ := reverseBlock_lift hreg hf₁ hb
    refine ⟨_, hrun, f₂, rfl, hf₂, fun c hc hfollows => ?_⟩
    rcases List.mem_append.mp hc with hc | hc
    · exact hmono _ (hdone c hc hfollows)
    · obtain rfl := List.mem_singleton.mp hc
      obtain ⟨b', hb', hname, y, hy, hsource⟩ := hfollows.exists_reads
      obtain rfl := hchain.eq_of_depName hb' hb hname
      refine hmapped ⟨y, hy, ?_⟩
      rcases hsource with rfl | hprev
      · rw [hf₁.target]
        exact Option.some_ne_none _
      · -- a block that is read comes earlier
        obtain ⟨c, hc, rfl⟩ := hprev.exists_mem
        refine hdone c ?_ hprev
        have hsplit := hc
        have hordered := hchain.ordered
        rw [hl] at hsplit hordered
        rcases List.mem_append.mp hsplit with hin | hin
        · exact hin
        · rcases List.mem_cons.mp hin with rfl | hin
          · exact absurd hy (hchain.noSelf _ hb)
          · have hafter := (List.pairwise_cons.mp (List.pairwise_append.mp hordered).2.1).1 c hin
            exact absurd hy hafter
  obtain ⟨m, hm, f', rfl, hrest⟩ := exists_foldlM (l := deps)
    (P := fun done m => ∃ f', m = lift f' ∧ Reversed deps t f' ∧
      ∀ c ∈ done, Follows deps t c.depName → f' c.depName ≠ none)
    ⟨f, rfl, hf, nofun⟩ hstep
  exact ⟨f', hm, hrest⟩

/-! ## The mapping -/

/-- The number of dimensions of a buffer that are not left out. -/
def keptLength (deps : List Statement) (rank : Name → ℕ) (name : Name) : ℕ :=
  (keep deps name (List.replicate (rank name) ())).length

theorem length_keep {α : Type} {name : Name} {l : List α} (h : l.length = rank name) :
    (keep deps name l).length = keptLength deps rank name :=
  length_keepFrom (by rw [h, List.length_replicate])

/-- The mapping of the target: closed under the loads of the blocks, with regions of one length for
each buffer that the tile needs. -/
structure Mapped (An : Analyzer) (deps : List Statement) (t : Statement) (rank : Name → ℕ)
    (f : Name → Option (List Region)) : Prop where
  target : f t.depName = some [t.spatialAxis.map .var]
  closed : ∀ b ∈ deps, ∀ name ∈ b.inputBuffers, name ≠ t.depName →
    ∃ qs l, f b.depName = some qs ∧ f name = some l ∧ ∀ q ∈ qs,
      ∀ region ∈ b.dependentRegion name, ∃ r ∈ l,
        regionIsSame (substRegion An b.spatialAxis q region) r = true
  sized : ∀ name, Needed deps t name → ∀ l, f name = some l → ∀ r ∈ l,
    r.length = keptLength deps rank name

theorem mem_loads_of_mem_inputLoads {dep : Statement} {load : Name × List PrimExpr}
    (h : load ∈ dep.inputLoads) : load ∈ dep.loads := List.mem_of_mem_filter h

/-- The regions of a buffer that the tile needs have one length. -/
theorem length_dropZeros (hchain : Chain deps t rank) (hreg : Regular An deps t) {b : Statement}
    (hb : b ∈ deps) {load : Name × List PrimExpr} (hload : load ∈ b.inputLoads)
    (hneeded : Needed deps t load.1) :
    (dropZeros load.2).length = keptLength deps rank load.1 := by
  rw [hreg.zeros b hb load hload hneeded]
  exact length_keep (hchain.rank_loads b hb load (mem_loads_of_mem_inputLoads hload))

/-- `construct_dependency_target` returns on a regular chain. -/
theorem constructDependencyTarget_spec (hchain : Chain deps t rank) (hreg : Regular An deps t) :
    ∃ f, constructDependencyTarget An deps t.depName = .ok (t.spatialAxis, lift f) ∧
      Mapped An deps t rank f := by
  let start : Name → Option (List Region) :=
    Function.update (fun _ => none) t.depName (some [t.spatialAxis.map .var])
  have hstart : Reversed deps t start := by
    have hother : ∀ x, x ≠ t.depName → start x = none := fun x hx => Function.update_of_ne hx ..
    refine ⟨Function.update_self .., fun name hname => ?_, fun name hname => ?_⟩
    · by_contra hnot
      exact hname (hother name fun heq => hnot (.inl heq))
    · by_cases heq : name = t.depName
      · rw [heq] at hname
        simp [start] at hname
      · rw [hother name heq] at hname
        cases hname
  obtain ⟨f₁, hfirst, hrev, hfollow⟩ := reverseBlocks_lift hreg hchain hstart
  have hmapped : ∀ done b rest, deps = done ++ b :: rest → f₁ b.depName ≠ none ∨
      ∃ c ∈ rest, b.depName ∈ c.inputBuffers ∧ b.depName ≠ t.depName := by
    intro done b rest hl
    have hb : b ∈ deps := by rw [hl]; simp
    by_cases htarget : b.depName = t.depName
    · rw [htarget, hrev.target]
      exact .inl (Option.some_ne_none _)
    · rcases hchain.used b hb with rfl | hfollows | ⟨c, hc, hreads⟩
      · exact absurd rfl htarget
      · exact .inl (hfollow b hb hfollows)
      · refine .inr ⟨c, ?_, hreads, htarget⟩
        have hordered := hchain.ordered
        have hsplit := hc
        rw [hl] at hordered hsplit
        rcases List.mem_append.mp hsplit with hin | hin
        · exact absurd hreads ((List.pairwise_append.mp hordered).2.2 c hin b List.mem_cons_self)
        · rcases List.mem_cons.mp hin with rfl | hin
          · exact absurd hreads (hchain.noSelf c hb)
          · exact hin
  obtain ⟨f, hsecond, hprop⟩ :=
    propagateBlocks_lift (t := t) An f₁ hchain.ordered hchain.noSelf hmapped
  refine ⟨f, ?_, hprop.target.trans hrev.target, hprop.closed, fun name hneeded l hl r hr => ?_⟩
  · have hfind : deps.find? (fun dep => dep.depName = t.depName) = some t := by
      obtain ⟨dep, hdep⟩ := Option.ne_none_iff_exists'.mp
        (show deps.find? (fun dep => dep.depName = t.depName) ≠ none by
          rw [ne_eq, List.find?_eq_none]
          exact fun hnone => hnone t hchain.mem (decide_eq_true rfl))
      have hname : decide (dep.depName = t.depName) = true :=
        List.find?_some (p := fun d : Statement => decide (d.depName = t.depName)) hdep
      rw [hdep, hchain.eq_of_depName (List.mem_of_find?_eq_some hdep) hchain.mem
        (of_decide_eq_true hname)]
    have hlift : Function.update (fun _ => none) t.depName
        (some [some (t.spatialAxis.map Affine.var)]) = lift start := by
      have hempty : (fun _ => none : Mapping) = lift fun _ => none := rfl
      rw [hempty]
      exact lift_update _ _ [t.spatialAxis.map Affine.var]
    rw [constructDependencyTarget, hfind]
    dsimp only
    rw [hlift, hfirst]
    change (propagateBlocks An t.depName deps (lift f₁) >>= _) = _
    rw [hsecond]
    rfl
  · obtain ⟨hne, hnot⟩ := hneeded.before hchain
    rcases hprop.added name l hl r hr with ⟨l₀, hl₀, -⟩ | ⟨b, hb, hreads, region, hregion, hlength⟩
    · have := hrev.only name (by rw [hl₀]; exact Option.some_ne_none _)
      exact absurd this (not_or.mpr ⟨hne, hnot⟩)
    · obtain ⟨load, hload, rfl, rfl⟩ := of_mem_dependentRegion hreads hregion
      rw [hlength]
      exact length_dropZeros hchain hreg hb hload hneeded

end TileLangNpuir.Carver.ShapeInference
