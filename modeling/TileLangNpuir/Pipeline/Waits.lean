import TileLangNpuir.Pipeline.Async
import TileLangNpuir.Pipeline.Injected

/-!
# Waiting for async writes

A block waits for as many groups as leaves only those in flight that were committed after what it
reads: whenever groups complete, what it reads is there.
-/

namespace TileLangNpuir.Pipeline

open Tir CommitQueue

variable {R : Type}

/-! ## Commit groups -/

section

variable {remap : Buffer → Option Buffer} {ordered : List (PipelineBlock R)} {stage : ℤ}

theorem pushBack_concat (order : ℤ) (groups : List (List ℤ)) (group : List ℤ) :
    pushBack order (groups ++ [group]) = groups ++ [group ++ [order]] := by
  induction groups with
  | nil => rfl
  | cons g groups ih =>
    cases groups with
    | nil => rfl
    | cons g' groups =>
      have hcons : pushBack order (g :: (g' :: groups ++ [group])) =
          g :: pushBack order (g' :: groups ++ [group]) := rfl
      rw [List.cons_append, hcons, ih]
      rfl

/-- A block of the stage goes into a new group or into the last one. -/
theorem commitStep_of_async (st : CommitState) {b : PipelineBlock R}
    (hasync : b.asyncIn stage = true) (hquiet : b.consumes remap ordered stage = false) :
    ∃ groups group, (st.groups = groups ++ [group] ∧ st.consumed = false ∨
        st.groups = groups ∧ group = [] ∧ (st.groups = [] ∨ st.consumed = true)) ∧
      commitStep remap ordered stage st b = ⟨groups ++ [group ++ [b.order]],
        (b.writes.map fun w => (newBuffer remap w.buffer, groups.length)).reverse ++
          st.bufferToGroup, false⟩ := by
  have hlen : ∀ (groups : List (List ℤ)) (group : List ℤ),
      (groups ++ [group ++ [b.order]]).length - 1 = groups.length := by
    intro groups group
    rw [List.length_append, List.length_singleton, Nat.add_sub_cancel]
  by_cases hnew : st.groups = [] ∨ st.consumed = true
  · refine ⟨st.groups, [], .inr ⟨rfl, rfl, hnew⟩, ?_⟩
    rw [commitStep, if_pos hasync]
    simp only [if_pos hnew, pushBack_concat, hlen, hquiet, Bool.false_eq_true, if_false]
  · obtain ⟨hne, hconsumed⟩ := not_or.mp hnew
    obtain ⟨groups, group, hgroups⟩ := List.eq_nil_or_concat st.groups |>.resolve_left hne
    rw [List.concat_eq_append] at hgroups
    refine ⟨groups, group, .inl ⟨hgroups, by simpa using hconsumed⟩, ?_⟩
    rw [commitStep, if_pos hasync]
    simp only [if_neg hnew]
    simp only [hgroups, pushBack_concat, hlen, hquiet, Bool.false_eq_true, if_false]

theorem commitStep_of_not_async {st : CommitState} {b : PipelineBlock R}
    (hasync : b.asyncIn stage = false) : commitStep remap ordered stage st b =
      if b.consumes remap ordered stage then { st with consumed := true } else st := by
  rw [commitStep, hasync]
  rfl

variable (remap ordered stage) in
/-- What is known of the groups after some blocks. -/
structure Grouped (past : List (PipelineBlock R)) (st : CommitState) : Prop where
  flatten : st.groups.flatten = (past.filter fun b => b.asyncIn stage).map PipelineBlock.order
  nonempty : ∀ g ∈ st.groups, g ≠ []
  /-- a block that reads stands between two groups -/
  split : ∀ c ∈ past, c.asyncIn stage = false → c.consumes remap ordered stage = true →
    ∀ g ∈ st.groups, (∀ o ∈ g, o < c.order) ∨ ∀ o ∈ g, c.order < o
  /-- and before the last group, as long as that is open -/
  opened : st.consumed = false → ∀ c ∈ past, c.consumes remap ordered stage = true →
    ∀ g ∈ st.groups.getLast?, ∀ o ∈ g, c.order < o
  /-- a buffer has the last group that it is written in -/
  lookup : ∀ a ∈ past, a.asyncIn stage = true → ∀ w ∈ a.writes, ∃ d,
    st.bufferToGroup.lookup (newBuffer remap w.buffer) = some d ∧ d < st.groups.length ∧
      ∃ k g, k ≤ d ∧ st.groups[k]? = some g ∧ a.order ∈ g

theorem lookup_written {ws : List (BufferRegion Buffer R)} {d : ℕ} {old : List (Buffer × ℕ)}
    (x : Buffer) :
    (((ws.map fun w => (newBuffer remap w.buffer, d)).reverse ++ old).lookup x) =
      if x ∈ ws.map fun w => newBuffer remap w.buffer then some d else old.lookup x := by
  have hlookup : ∀ l : List Buffer, ((l.map fun y => (y, d)) ++ old).lookup x =
      if x ∈ l then some d else old.lookup x := by
    intro l
    induction l with
    | nil => rfl
    | cons y l ih =>
      rw [List.map_cons, List.cons_append, List.lookup_cons]
      by_cases hxy : x = y
      · rw [hxy, beq_self_eq_true, if_pos List.mem_cons_self]
      · rw [beq_false_of_ne hxy, ih]
        simp only [List.mem_cons, hxy, false_or]
  have := hlookup (ws.map fun w => newBuffer remap w.buffer).reverse
  simp only [List.map_reverse, List.map_map, List.mem_reverse] at this
  exact this

theorem Grouped.nil : Grouped remap ordered stage [] ⟨[], [], false⟩ where
  flatten := rfl
  nonempty := by simp
  split := by simp
  opened := by simp
  lookup := by simp

theorem Grouped.async {past : List (PipelineBlock R)} {st : CommitState} {b : PipelineBlock R}
    (h : Grouped remap ordered stage past st) (hsorted : ∀ c ∈ past, c.order < b.order)
    (hasync : b.asyncIn stage = true) (hquiet : b.consumes remap ordered stage = false) :
    Grouped remap ordered stage (past ++ [b]) (commitStep remap ordered stage st b) := by
  obtain ⟨groups, group, hcases, hstep⟩ := commitStep_of_async st hasync hquiet
  -- the new group, or the open one, comes after every block that reads
  have hgroup : ∀ c ∈ past, c.consumes remap ordered stage = true → ∀ o ∈ group, c.order < o := by
    intro c hc hcons o ho
    rcases hcases with ⟨hgroups, hconsumed⟩ | ⟨-, rfl, -⟩
    · exact h.opened hconsumed c hc hcons group (by rw [hgroups]; simp) o ho
    · cases ho
  have hold : ∀ g ∈ groups, g ∈ st.groups := by
    intro g hg
    rcases hcases with ⟨hgroups, -⟩ | ⟨hgroups, -⟩
    · rw [hgroups]
      exact List.mem_append_left _ hg
    · rwa [hgroups]
  have hlast : ∀ c ∈ past ++ [b], c.consumes remap ordered stage = true →
      ∀ o ∈ group ++ [b.order], c.order < o := by
    intro c hc hcons o ho
    rcases List.mem_append.mp hc with hc | hc
    · rcases List.mem_append.mp ho with ho | ho
      · exact hgroup c hc hcons o ho
      · rw [List.mem_singleton.mp ho]
        exact hsorted c hc
    · rw [List.mem_singleton.mp hc, hquiet] at hcons
      cases hcons
  rw [hstep]
  refine ⟨?_, ?_, ?_, ?_, ?_⟩
  · have hflatten : groups.flatten ++ group = st.groups.flatten := by
      rcases hcases with ⟨hgroups, -⟩ | ⟨hgroups, rfl, -⟩
      · rw [hgroups]
        simp
      · rw [hgroups, List.append_nil]
    rw [List.filter_append, List.map_append, ← h.flatten, ← hflatten]
    simp [hasync]
  · intro g hg
    rcases List.mem_append.mp hg with hg | hg
    · exact h.nonempty g (hold g hg)
    · rw [List.mem_singleton.mp hg]
      exact List.append_ne_nil_of_right_ne_nil _ (List.cons_ne_nil _ _)
  · intro c hc hca hcons g hg
    rcases List.mem_append.mp hg with hg | hg
    · rcases List.mem_append.mp hc with hc | hc
      · exact h.split c hc hca hcons g (hold g hg)
      · rw [List.mem_singleton.mp hc, hquiet] at hcons
        cases hcons
    · rw [List.mem_singleton.mp hg]
      exact .inr (hlast c hc hcons)
  · intro _ c hc hcons g hg
    rw [List.getLast?_append, List.getLast?_singleton] at hg
    obtain rfl := Option.some.inj hg
    exact hlast c hc hcons
  · intro a ha haa w hw
    simp only [lookup_written, List.length_append, List.length_singleton]
    rcases List.mem_append.mp ha with ha | ha
    · obtain ⟨d, hd, hlt, k, g, hk, hg, horder⟩ := h.lookup a ha haa w hw
      -- its group is an old one, or the one that is still open
      have hkg : ∃ g, (groups ++ [group ++ [b.order]])[k]? = some g ∧ a.order ∈ g := by
        rcases hcases with ⟨hgroups, -⟩ | ⟨hgroups, -, -⟩
        · rw [hgroups] at hg
          by_cases hkl : k < groups.length
          · rw [List.getElem?_append_left hkl] at hg
            exact ⟨g, by rw [List.getElem?_append_left hkl, hg], horder⟩
          · have hkl : k = groups.length := by
              have := (List.getElem?_eq_some_iff.mp hg).1
              rw [List.length_append, List.length_singleton] at this
              omega
            rw [hkl, List.getElem?_append_right le_rfl, Nat.sub_self] at hg
            obtain rfl := Option.some.inj hg
            refine ⟨group ++ [b.order], ?_, List.mem_append_left _ horder⟩
            rw [hkl, List.getElem?_append_right le_rfl, Nat.sub_self]
            rfl
        · rw [hgroups] at hg
          have hkl := (List.getElem?_eq_some_iff.mp hg).1
          exact ⟨g, by rw [List.getElem?_append_left hkl, hg], horder⟩
      have hlen : st.groups.length ≤ groups.length + 1 := by
        rcases hcases with ⟨hgroups, -⟩ | ⟨hgroups, -, -⟩
        · rw [hgroups, List.length_append, List.length_singleton]
        · rw [hgroups]
          exact Nat.le_succ _
      obtain ⟨g, hg, horder⟩ := hkg
      by_cases hnew : newBuffer remap w.buffer ∈ b.writes.map fun w => newBuffer remap w.buffer
      · exact ⟨groups.length, if_pos hnew, Nat.lt_succ_self _, k, g, by omega, hg, horder⟩
      · exact ⟨d, (if_neg hnew).trans hd, by omega, k, g, hk, hg, horder⟩
    · rw [List.mem_singleton.mp ha] at hw ⊢
      refine ⟨groups.length, if_pos (List.mem_map.mpr ⟨w, hw, rfl⟩), Nat.lt_succ_self _,
        groups.length, group ++ [b.order], le_rfl, ?_, by simp⟩
      rw [List.getElem?_append_right le_rfl, Nat.sub_self]
      rfl

theorem Grouped.sync {past : List (PipelineBlock R)} {st : CommitState} {b : PipelineBlock R}
    (h : Grouped remap ordered stage past st) (hsorted : ∀ c ∈ past, c.order < b.order)
    (hasync : b.asyncIn stage = false) :
    Grouped remap ordered stage (past ++ [b]) (commitStep remap ordered stage st b) := by
  have hgroups : (commitStep remap ordered stage st b).groups = st.groups := by
    rw [commitStep_of_not_async hasync]
    split <;> rfl
  have hbuffers : (commitStep remap ordered stage st b).bufferToGroup = st.bufferToGroup := by
    rw [commitStep_of_not_async hasync]
    split <;> rfl
  -- what is in a group comes before the block
  have hbefore : ∀ g ∈ st.groups, ∀ o ∈ g, o < b.order := by
    intro g hg o ho
    have hmem : o ∈ st.groups.flatten := List.mem_flatten_of_mem hg ho
    rw [h.flatten] at hmem
    obtain ⟨c, hc, rfl⟩ := List.mem_map.mp hmem
    exact hsorted c (List.mem_filter.mp hc).1
  refine ⟨?_, ?_, ?_, ?_, ?_⟩
  · rw [hgroups, h.flatten, List.filter_append]
    simp [hasync]
  · rw [hgroups]
    exact h.nonempty
  · rw [hgroups]
    intro c hc hca hcons g hg
    rcases List.mem_append.mp hc with hc | hc
    · exact h.split c hc hca hcons g hg
    · rw [List.mem_singleton.mp hc]
      exact .inl (hbefore g hg)
  · rw [hgroups]
    intro hconsumed c hc hcons
    rw [commitStep_of_not_async hasync] at hconsumed
    rcases List.mem_append.mp hc with hc | hc
    · refine h.opened ?_ c hc hcons
      split at hconsumed
      · cases hconsumed
      · exact hconsumed
    · rw [List.mem_singleton.mp hc] at hcons
      rw [if_pos hcons] at hconsumed
      cases hconsumed
  · rw [hgroups, hbuffers]
    intro a ha haa
    rcases List.mem_append.mp ha with ha | ha
    · exact h.lookup a ha haa
    · rw [List.mem_singleton.mp ha, hasync] at haa
      cases haa

/-- The groups of a pipeline. -/
theorem grouped_commitState (hsorted : ordered.Pairwise fun p q => p.order < q.order)
    (hquiet : ∀ b ∈ ordered, b.asyncIn stage = true → b.consumes remap ordered stage = false) :
    Grouped remap ordered stage ordered (commitState remap ordered stage) := by
  have hall : ∀ past rest, ordered = past ++ rest →
      Grouped remap ordered stage past
        (past.foldl (commitStep remap ordered stage) ⟨[], [], false⟩) := by
    intro past
    induction past using List.reverseRecOn with
    | nil => exact fun _ _ => .nil
    | append_singleton past b ih =>
      intro rest heq
      rw [List.append_assoc] at heq
      have hb : b ∈ ordered := heq ▸ List.mem_append_right past List.mem_cons_self
      have hbefore : ∀ c ∈ past, c.order < b.order := fun c hc =>
        (List.pairwise_append.mp (heq ▸ hsorted)).2.2 c hc b List.mem_cons_self
      rw [List.foldl_append]
      cases hasync : b.asyncIn stage with
      | true => exact (ih _ heq).async hbefore hasync (hquiet b hb hasync)
      | false => exact (ih _ heq).sync hbefore hasync
  exact hall ordered [] (List.append_nil _).symm

end

/-! ## Lists -/

/-- Groups on both sides of a block divide what comes before it from what comes after. -/
theorem exists_split {groups : List (List ℤ)} {before after : List ℤ} {x : ℤ}
    (h : groups.flatten = before ++ after) (hbefore : ∀ o ∈ before, o < x)
    (hafter : ∀ o ∈ after, x < o) (hne : ∀ g ∈ groups, g ≠ [])
    (hsplit : ∀ g ∈ groups, (∀ o ∈ g, o < x) ∨ ∀ o ∈ g, x < o) :
    ∃ gs gs', groups = gs ++ gs' ∧ gs.flatten = before ∧ gs'.flatten = after := by
  induction groups generalizing before with
  | nil =>
    obtain ⟨rfl, rfl⟩ := List.append_eq_nil_iff.mp h.symm
    exact ⟨[], [], rfl, rfl, rfl⟩
  | cons g groups ih =>
    rw [List.flatten_cons] at h
    rcases hsplit g List.mem_cons_self with hg | hg
    · -- the group is all before
      have hpart : ∃ rest, before = g ++ rest ∧ groups.flatten = rest ++ after := by
        rcases List.append_eq_append_iff.mp h with ⟨c, hc, hrest⟩ | ⟨c, hc, hrest⟩
        · exact ⟨c, hc, hrest⟩
        · have hnil : c = [] := by
            rw [List.eq_nil_iff_forall_not_mem]
            intro o ho
            have h₁ := hg o (hc ▸ List.mem_append_right _ ho)
            have h₂ := hafter o (hrest ▸ List.mem_append_left _ ho)
            exact lt_asymm h₁ h₂
          subst hnil
          exact ⟨[], by rw [hc]; simp, hrest.symm⟩
      obtain ⟨rest, rfl, hrest⟩ := hpart
      obtain ⟨gs, gs', rfl, rfl, hgs'⟩ := ih hrest
        (fun o ho => hbefore o (List.mem_append_right _ ho))
        (fun g hg => hne g (List.mem_cons_of_mem _ hg))
        fun g hg => hsplit g (List.mem_cons_of_mem _ hg)
      exact ⟨g :: gs, gs', rfl, rfl, hgs'⟩
    · -- and so are all that come after it
      have hnil : before = [] := by
        obtain ⟨o, g', rfl⟩ := List.exists_cons_of_ne_nil (hne g List.mem_cons_self)
        cases before with
        | nil => rfl
        | cons o' before =>
          rw [List.cons_append, List.cons_append] at h
          have h₁ := hg o List.mem_cons_self
          have h₂ := hbefore o' List.mem_cons_self
          rw [(List.cons.inj h).1] at h₁
          exact absurd h₁ (lt_asymm h₂)
      subst hnil
      exact ⟨[], g :: groups, rfl, rfl, h⟩

theorem relax_le {dependent : List ℕ} {d : ℕ} (hd : d ∈ dependent) :
    ∀ {n : ℕ}, d < n → relax dependent n + d + 1 ≤ n := by
  intro n
  induction n with
  | zero => exact fun h => absurd h (Nat.not_lt_zero d)
  | succ n ih =>
    intro hlt
    rw [relax]
    by_cases hn : n ∈ dependent
    · rw [if_pos hn]
      omega
    · rw [if_neg hn]
      have hne : d ≠ n := fun h => hn (h ▸ hd)
      have := ih (by omega)
      omega

theorem eq_append_of_append_eq {α : Type} {l l' pre post : List α} {e : α}
    (h : l ++ l' = pre ++ e :: post) :
    (∃ post', l = pre ++ e :: post') ∨ ∃ pre', pre = l ++ pre' ∧ l' = pre' ++ e :: post := by
  rcases List.append_eq_append_iff.mp h with ⟨c, hc, hrest⟩ | ⟨c, hc, hrest⟩
  · exact .inr ⟨c, hc, hrest⟩
  · cases c with
    | nil => exact .inr ⟨[], by rw [hc, List.append_nil, List.append_nil], hrest.symm⟩
    | cons e' c =>
      obtain ⟨rfl, -⟩ := List.cons.inj hrest
      exact .inl ⟨c, hc⟩

theorem exists_of_flatMap_eq {α β : Type} {f : α → List β} {l : List α} {post : List β} {e : β}
    (pre : List β) (h : l.flatMap f = pre ++ e :: post) :
    ∃ l₁ a l₂ p q, l = l₁ ++ a :: l₂ ∧ f a = p ++ e :: q ∧ pre = l₁.flatMap f ++ p := by
  induction l generalizing pre with
  | nil => exact absurd h (by simp)
  | cons a l ih =>
    rw [List.flatMap_cons] at h
    rcases List.append_eq_append_iff.mp h with ⟨c, hc, hrest⟩ | ⟨c, hc, hrest⟩
    · obtain ⟨l₁, a', l₂, p, q, rfl, hfa, rfl⟩ := ih _ hrest
      exact ⟨a :: l₁, a', l₂, p, q, rfl, hfa, by rw [hc, List.flatMap_cons, List.append_assoc]⟩
    · cases c with
      | nil =>
        obtain ⟨l₁, a', l₂, p, q, rfl, hfa, hpre⟩ := ih [] hrest.symm
        refine ⟨a :: l₁, a', l₂, p, q, rfl, hfa, ?_⟩
        rw [List.append_nil] at hc
        rw [List.flatMap_cons, List.append_assoc, ← hpre, hc, List.append_nil]
      | cons x c =>
        obtain ⟨rfl, -⟩ := List.cons.inj hrest
        exact ⟨[], a, l, pre, c, rfl, hc, rfl⟩

/-- A sum that is built up term by term. -/
theorem eval_foldl_add {α : Type} (f : α → Expr) (env : Env) (m : Mem) (l : List α) (e : Expr) :
    (l.foldl (fun (cnt : Expr) a => cnt.add (f a)) e).eval env m =
      e.eval env m + (l.map fun a => (f a).eval env m).sum := by
  induction l generalizing e with
  | nil => simp
  | cons a l ih =>
    rw [List.foldl_cons, ih, eval_add, List.map_cons, List.sum_cons, add_assoc]

theorem sum_map_const {α : Type} {f : α → ℤ} {l : List α} {x : ℤ} (h : ∀ a ∈ l, f a = x) :
    (l.map f).sum = l.length * x := by
  rw [List.map_congr_left h, List.map_const', List.sum_replicate, nsmul_eq_mul]

end TileLangNpuir.Pipeline
