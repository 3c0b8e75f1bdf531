import TileLangNpuir.Lib.Runs
import Mathlib.Data.List.Basic
import Mathlib.Data.List.Chain
import Mathlib.Data.List.Nodup
import Mathlib.Data.List.TakeDrop
import Mathlib.Order.Bounds.Basic

/-!
# The buffer planner

`BestFit` (`roller/bestfit.py`): a list of blocks that is split, extended and merged in place,
while the callers keep the blocks they were given. A block is an object; its `id` tells it from
others, and the planner looks it up by it.
-/

namespace TileLangNpuir.Carver

/-- `Block`. -/
structure Block : Type where
  id : ℕ
  start : ℕ
  stop : ℕ
  isFree : Bool
  le : start ≤ stop

namespace Block

def size (b : Block) : ℕ := b.stop - b.start

/-- The block with another end. -/
def resize (b : Block) (size : ℕ) (isFree : Bool) : Block :=
  ⟨b.id, b.start, b.start + size, isFree, Nat.le_add_right ..⟩

/-- `merge`: `b` grows over `other`. -/
def merge (b other : Block) : Block :=
  ⟨b.id, min b.start other.start, max b.stop other.stop, b.isFree,
    (min_le_left ..).trans (b.le.trans (le_max_left ..))⟩

end Block

/-- `BestFit`. -/
structure BestFit : Type where
  align : ℕ
  limit : ℕ
  list : List Block
  nextId : ℕ

namespace BestFit

/-- `__init__`. -/
def init (align : ℕ) : BestFit := ⟨align, 0, [], 0⟩

/-- The size, rounded up to the alignment. -/
def roundUp (s : BestFit) (size : ℕ) : ℕ := (size + s.align - 1) / s.align * s.align

/-- The loop over the blocks: the first of the smallest free ones that are large enough. -/
def findBest (size : ℕ) (list : List Block) : Option Block :=
  list.foldl (fun found block =>
    if block.isFree && decide (size ≤ block.size) &&
        found.all (fun f => decide (block.size < f.size)) then some block
    else found) none

/-- A new block at the end. -/
def append (s : BestFit) (size : ℕ) : Block × BestFit :=
  let block : Block := ⟨s.nextId, s.limit, s.limit + size, false, Nat.le_add_right ..⟩
  (block, { s with
    list := s.list ++ [block]
    limit := s.limit + size
    nextId := s.nextId + 1 })

/-- `malloc`. -/
def malloc (s : BestFit) (size : ℕ) : Block × BestFit :=
  let size := s.roundUp size
  match findBest size s.list with
  | some found =>
    let remain := found.size - size
    let used := found.resize (found.size - remain) false
    let rest : List Block :=
      if remain ≠ 0 then [⟨s.nextId, used.stop, used.stop + remain, true, Nat.le_add_right ..⟩]
      else []
    match s.list.span (·.id ≠ found.id) with
    | (before, after) => (used, { s with
        list := before ++ used :: rest ++ after.tail
        nextId := s.nextId + 1 })
  | none =>
    match s.list.getLast? with
    | none => s.append size
    | some last =>
      if last.isFree then
        let add := size - last.size
        let used := last.resize (last.size + add) false
        (used, { s with list := s.list.dropLast ++ [used], limit := used.stop })
      else s.append size

/-- The new block and those after it: a free neighbour is merged. -/
def mergeNext (new : Block) : List Block → Block × List Block
  | next :: rest => if next.isFree then (new.merge next, rest) else (new, next :: rest)
  | [] => (new, [])

/-- Those before the new block and the block: a free neighbour is merged. -/
def mergePrev (before : List Block) (new : Block) : List Block × Block :=
  match before.getLast? with
  | some prev => if prev.isFree then (before.dropLast, new.merge prev) else (before, new)
  | none => (before, new)

/-- `free`. The block is replaced by a free one, which takes in its free neighbours. -/
def free (s : BestFit) (id : ℕ) : Option BestFit :=
  match s.list.span (·.id ≠ id) with
  | (_, []) => none
  | (before, block :: after) =>
    if block.isFree then none
    else
      let new : Block := ⟨s.nextId, block.start, block.stop, true, block.le⟩
      let (new, after) := mergeNext new after
      let (before, new) := mergePrev before new
      some { s with list := before ++ new :: after, nextId := s.nextId + 1 }

end BestFit

/-- A block that was handed out for a size and not freed. -/
structure Live : Type where
  block : Block
  size : ℕ

/-- What a caller does. -/
inductive Command : Type where
  | malloc (size : ℕ)
  | free (id : ℕ)

/-- The planner, and the blocks that the callers have. -/
structure Planner : Type where
  bestFit : BestFit
  live : List Live

namespace Planner

/-- One call. -/
def step (p : Planner) : Command → Except Unit Planner
  | .malloc size => .ok ⟨(p.bestFit.malloc size).2, p.live ++ [⟨(p.bestFit.malloc size).1, size⟩]⟩
  | .free id =>
    match p.bestFit.free id with
    | some s => .ok ⟨s, p.live.filter (·.block.id ≠ id)⟩
    | none => .error ()

/-- Only live blocks are freed. -/
def Allowed (p : Planner) : Command → Prop
  | .malloc _ => True
  | .free id => ∃ h ∈ p.live, h.block.id = id

instance (p : Planner) : (c : Command) → Decidable (p.Allowed c)
  | .malloc _ => .isTrue trivial
  | .free id => inferInstanceAs (Decidable (∃ h ∈ p.live, h.block.id = id))

/-- The runs of a planner. -/
def Reaches (align : ℕ) (calls : List Command) (p : Planner) : Prop :=
  Run step (fun _ => Allowed) ⟨.init align, []⟩ calls p

end Planner

/-! ## Consecutive blocks -/

/-- The blocks follow each other from `a` to `b`. -/
def Tiles : ℕ → List Block → ℕ → Prop
  | a, [], b => a = b
  | a, x :: l, b => x.start = a ∧ Tiles x.stop l b

/-- No two neighbours are free. -/
def NoFreePair (l : List Block) : Prop := l.IsChain fun x y => ¬(x.isFree = true ∧ y.isFree = true)

section

variable {a b c : ℕ} {l k : List Block} {x y : Block}

theorem tiles_append : Tiles a (l ++ k) b ↔ ∃ m, Tiles a l m ∧ Tiles m k b := by
  induction l generalizing a with
  | nil =>
    refine ⟨fun h => ⟨a, rfl, h⟩, ?_⟩
    rintro ⟨m, rfl, h⟩
    exact h
  | cons x l ih =>
    simp only [List.cons_append, Tiles, ih]
    refine ⟨?_, ?_⟩
    · rintro ⟨hx, m, hl, hk⟩
      exact ⟨m, ⟨hx, hl⟩, hk⟩
    · rintro ⟨m, ⟨hx, hl⟩, hk⟩
      exact ⟨hx, m, hl, hk⟩

theorem Tiles.le (h : Tiles a l b) : a ≤ b := by
  induction l generalizing a with
  | nil => exact le_of_eq h
  | cons x l ih =>
    obtain ⟨rfl, h⟩ := h
    exact x.le.trans (ih h)

theorem Tiles.bounds (h : Tiles a l b) : ∀ x ∈ l, a ≤ x.start ∧ x.stop ≤ b := by
  induction l generalizing a with
  | nil => exact fun x hx => (nomatch hx)
  | cons y l ih =>
    obtain ⟨rfl, h⟩ := h
    intro x hx
    rcases List.mem_cons.mp hx with rfl | hx
    · exact ⟨le_rfl, h.le⟩
    · exact ⟨y.le.trans (ih h x hx).1, (ih h x hx).2⟩

/-- Two blocks do not overlap. -/
theorem Tiles.apart (h : Tiles a l b) (hx : x ∈ l)
    (hy : y ∈ l) (hne : x ≠ y) : x.stop ≤ y.start ∨ y.stop ≤ x.start := by
  induction l generalizing a with
  | nil => cases hx
  | cons z l ih =>
    obtain ⟨-, h⟩ := h
    rcases List.mem_cons.mp hx with hxz | hxl
    · rcases List.mem_cons.mp hy with hyz | hyl
      · exact absurd (hxz.trans hyz.symm) hne
      · exact .inl (hxz ▸ (h.bounds y hyl).1)
    · rcases List.mem_cons.mp hy with hyz | hyl
      · exact .inr (hyz ▸ (h.bounds x hxl).1)
      · exact ih h hxl hyl

theorem noFreePair_append : NoFreePair (l ++ k) ↔ NoFreePair l ∧ NoFreePair k ∧
    ∀ x ∈ l.getLast?, ∀ y ∈ k.head?, ¬(x.isFree = true ∧ y.isFree = true) :=
  List.isChain_append

end

/-! ## The planner's lists -/

/-- The blocks have different identities, follow each other up to the limit, and free ones are
merged. -/
structure BestFit.Inv (s : BestFit) : Prop where
  ids : (s.list.map Block.id).Nodup
  fresh : ∀ b ∈ s.list, b.id < s.nextId
  tiles : Tiles 0 s.list s.limit
  merged : NoFreePair s.list

section

variable {s s' : BestFit} {pre old new post : List Block}

theorem BestFit.init_inv (align : ℕ) : (BestFit.init align).Inv :=
  ⟨List.nodup_nil, fun _ hb => (nomatch hb), rfl, .nil⟩

/-- Some consecutive blocks are replaced. The new ones are the old objects, or one of a new
identity. -/
theorem BestFit.Inv.splice (h : s.Inv) (hold : s.list = pre ++ old ++ post)
    (hnew : s'.list = pre ++ new ++ post) (hids : (new.map Block.id).Nodup)
    (hfrom : ∀ x ∈ new, (∃ y ∈ old, y.id = x.id) ∨ x.id = s.nextId)
    (hnext : s.nextId ≤ s'.nextId) (hfresh : ∀ x ∈ new, x.id < s'.nextId)
    (htiles : ∀ a, Tiles a (old ++ post) s.limit → Tiles a (new ++ post) s'.limit)
    (hmerged : NoFreePair s'.list) : s'.Inv := by
  have hkept : ∀ z ∈ pre ++ post, z ∈ s.list := by
    intro z hz
    rw [hold]
    simp only [List.mem_append] at hz ⊢
    tauto
  have hnodup := h.ids
  rw [hold, List.map_append, List.map_append, List.nodup_append', List.nodup_append'] at hnodup
  obtain ⟨⟨hpre, -, hpreOld⟩, hpost, hposts⟩ := hnodup
  rw [List.disjoint_append_left] at hposts
  -- a new block has the identity of no block that stays
  have hapart : ∀ x ∈ new, ∀ z ∈ pre ++ post, x.id ≠ z.id := by
    intro x hx z hz heq
    rcases hfrom x hx with ⟨y, hy, hyx⟩ | hid
    · rw [← hyx] at heq
      rcases List.mem_append.mp hz with hz | hz
      · exact hpreOld (List.mem_map_of_mem hz) (heq ▸ List.mem_map_of_mem hy)
      · exact hposts.2 (List.mem_map_of_mem hy) (heq ▸ List.mem_map_of_mem hz)
    · have := h.fresh z (hkept z hz)
      omega
  refine ⟨?_, ?_, ?_, hmerged⟩
  · rw [hnew, List.map_append, List.map_append, List.nodup_append', List.nodup_append',
      List.disjoint_append_left]
    refine ⟨⟨hpre, hids, fun i hi hj => ?_⟩, hpost, hposts.1, fun i hi hj => ?_⟩
    · obtain ⟨z, hz, rfl⟩ := List.mem_map.mp hi
      obtain ⟨x, hx, heq⟩ := List.mem_map.mp hj
      exact hapart x hx z (List.mem_append_left _ hz) heq
    · obtain ⟨x, hx, rfl⟩ := List.mem_map.mp hi
      obtain ⟨z, hz, heq⟩ := List.mem_map.mp hj
      exact hapart x hx z (List.mem_append_right _ hz) heq.symm
  · intro b hb
    rw [hnew, List.append_assoc] at hb
    rcases List.mem_append.mp hb with hb | hb
    · exact (h.fresh b (hkept b (List.mem_append_left _ hb))).trans_le hnext
    · rcases List.mem_append.mp hb with hb | hb
      · exact hfresh b hb
      · exact (h.fresh b (hkept b (List.mem_append_right _ hb))).trans_le hnext
  · have ht := h.tiles
    rw [hold, List.append_assoc, tiles_append] at ht
    obtain ⟨m, hm, ht⟩ := ht
    rw [hnew, List.append_assoc, tiles_append]
    exact ⟨m, hm, htiles m ht⟩

/-- `list.index` finds the block itself. -/
theorem span_id {f : Block} {l : List Block} (hids : (l.map Block.id).Nodup) (hf : f ∈ l) :
    ∃ pre post, l = pre ++ f :: post ∧ l.span (fun b => b.id ≠ f.id) = (pre, f :: post) := by
  obtain ⟨pre, post, rfl⟩ := List.append_of_mem hf
  refine ⟨pre, post, rfl, ?_⟩
  have hpre : ∀ x ∈ pre, decide (x.id ≠ f.id) = true := by
    intro x hx
    rw [decide_eq_true_eq]
    rw [List.map_append, List.nodup_append'] at hids
    intro heq
    have hmem : f.id ∈ pre.map Block.id := by
      rw [← heq]
      exact List.mem_map_of_mem hx
    exact hids.2.2 hmem List.mem_cons_self
  rw [List.span_eq_takeWhile_dropWhile, List.takeWhile_append_of_pos hpre,
    List.dropWhile_append_of_pos hpre]
  simp

theorem BestFit.findBest_spec (size : ℕ) (l : List Block) :
    match BestFit.findBest size l with
    | some f => f ∈ l ∧ f.isFree = true ∧ size ≤ f.size
    | none => ∀ x ∈ l, x.isFree = true → x.size < size := by
  unfold BestFit.findBest
  induction l using List.reverseRecOn with
  | nil => exact fun x hx => (nomatch hx)
  | append_singleton l x ih =>
    rw [List.foldl_append]
    simp only [List.foldl_cons, List.foldl_nil]
    cases hfound : l.foldl (fun (found : Option Block) block =>
        if block.isFree && decide (size ≤ block.size) &&
          found.all (fun f => decide (block.size < f.size)) then some block else found) none with
    | some f =>
      rw [hfound] at ih
      obtain ⟨hmem, hrest⟩ := ih
      split
      · rename_i g hg
        split at hg
        · rename_i hx
          obtain rfl := Option.some.inj hg
          simp only [Bool.and_eq_true, decide_eq_true_eq] at hx
          exact ⟨by simp, hx.1.1, hx.1.2⟩
        · obtain rfl := Option.some.inj hg
          exact ⟨List.mem_append_left _ hmem, hrest⟩
      · rename_i hg
        split at hg <;> cases hg
    | none =>
      rw [hfound] at ih
      split
      · rename_i g hg
        split at hg
        · rename_i hx
          obtain rfl := Option.some.inj hg
          simp only [Bool.and_eq_true, decide_eq_true_eq] at hx
          exact ⟨by simp, hx.1.1, hx.1.2⟩
        · cases hg
      · rename_i hg
        split at hg
        · cases hg
        · rename_i hx
          intro y hy hfree
          rcases List.mem_append.mp hy with hy | hy
          · exact ih y hy hfree
          · obtain rfl := List.mem_singleton.mp hy
            simpa [hfree] using hx

/-- What `malloc` does: it takes a free block and gives back the rest of it, extends a free block
at the end, or appends one. -/
inductive Mallocs (s : BestFit) (size : ℕ) : Block → BestFit → Prop
  | split {pre post rest : List Block} {f b : Block} {s' : BestFit} :
      s.list = pre ++ [f] ++ post → f.isFree = true → b.id = f.id → b.start = f.start →
      b.isFree = false → b.size = s.roundUp size →
      (rest = [] ∧ b.stop = f.stop ∨ ∃ r, rest = [r] ∧ r.id = s.nextId ∧ r.isFree = true ∧
        r.start = b.stop ∧ r.stop = f.stop) →
      s'.list = pre ++ (b :: rest) ++ post → s'.limit = s.limit → s'.align = s.align →
      s'.nextId = s.nextId + 1 → Mallocs s size b s'
  | extend {pre : List Block} {f b : Block} {s' : BestFit} :
      s.list = pre ++ [f] ++ [] → f.isFree = true → b.id = f.id → b.start = f.start →
      b.isFree = false → b.size = s.roundUp size →
      (∀ y ∈ s.list, y.isFree = true → y.size < s.roundUp size) →
      s'.list = pre ++ [b] ++ [] → s'.limit = b.stop → s'.align = s.align →
      s'.nextId = s.nextId → Mallocs s size b s'
  | append {b : Block} {s' : BestFit} :
      (∀ f ∈ s.list.getLast?, f.isFree = false) → b.id = s.nextId → b.start = s.limit →
      b.isFree = false → b.size = s.roundUp size →
      (∀ y ∈ s.list, y.isFree = true → y.size < s.roundUp size) → s'.list = s.list ++ [b] ++ [] →
      s'.limit = b.stop → s'.align = s.align → s'.nextId = s.nextId + 1 → Mallocs s size b s'

theorem Block.size_resize (b : Block) (size : ℕ) (isFree : Bool) :
    (b.resize size isFree).size = size := Nat.add_sub_cancel_left ..

theorem BestFit.mallocs_append {size : ℕ} (h : ∀ f ∈ s.list.getLast?, f.isFree = false)
    (hsmall : ∀ y ∈ s.list, y.isFree = true → y.size < s.roundUp size) :
    Mallocs s size (s.append (s.roundUp size)).1 (s.append (s.roundUp size)).2 :=
  .append h rfl rfl rfl (Nat.add_sub_cancel_left ..) hsmall (List.append_nil _).symm rfl rfl rfl

theorem BestFit.Inv.mallocs (h : s.Inv) (size : ℕ) :
    Mallocs s size (s.malloc size).1 (s.malloc size).2 := by
  have hspec := BestFit.findBest_spec (s.roundUp size) s.list
  unfold BestFit.malloc
  dsimp only
  cases hfound : BestFit.findBest (s.roundUp size) s.list with
  | some f =>
    rw [hfound] at hspec
    obtain ⟨hmem, hfree, hfits⟩ := hspec
    obtain ⟨pre, post, hlist, hspan⟩ := span_id h.ids hmem
    have hle := f.le
    have hstop : f.start + f.size = f.stop := by
      rw [Block.size]
      omega
    simp only [hspan, List.tail_cons]
    refine .split (by rw [hlist, List.append_assoc]; rfl) hfree rfl rfl rfl ?_ ?_ rfl rfl rfl rfl
    · rw [Block.size_resize]
      omega
    · split
      · refine .inr ⟨_, rfl, rfl, rfl, rfl, ?_⟩
        simp only [Block.resize]
        omega
      · refine .inl ⟨rfl, ?_⟩
        simp only [Block.resize]
        omega
  | none =>
    rw [hfound] at hspec
    dsimp only
    cases hlast : s.list.getLast? with
    | none =>
      refine s.mallocs_append (fun f hf => ?_) hspec
      rw [hlast] at hf
      cases hf
    | some last =>
      dsimp only
      split
      · rename_i hfree
        obtain ⟨pre, hlist⟩ := List.getLast?_eq_some_iff.mp hlast
        have hsmall := hspec last (by rw [hlist]; simp) hfree
        refine .extend (by rw [hlist, List.append_nil]) hfree rfl rfl rfl ?_ hspec ?_ rfl rfl rfl
        · rw [Block.size_resize]
          omega
        · rw [hlist, List.dropLast_concat, List.append_nil]
      · rename_i hused
        refine s.mallocs_append (fun f hf => ?_) hspec
        rw [hlast] at hf
        obtain rfl := Option.some.inj hf
        simpa using hused

theorem Mallocs.inv {size : ℕ} {b : Block} (h : s.Inv) (hm : Mallocs s size b s') : s'.Inv := by
  have hmerged := h.merged
  cases hm with
  | @split pre post rest f _ _ hlist hfree hid hstart hused hsize hrest hlist' hlimit _ hnext =>
    rw [hlist, noFreePair_append, noFreePair_append] at hmerged
    obtain ⟨⟨hpre, -, -⟩, hpost, hfpost⟩ := hmerged
    have hfid := h.fresh f (by rw [hlist]; simp)
    refine h.splice hlist hlist' ?_ ?_ (by omega) ?_ ?_ ?_
    · rcases hrest with ⟨rfl, -⟩ | ⟨r, rfl, hr, -⟩
      · simp
      · simp only [List.map_cons, List.map_nil, List.nodup_cons, List.mem_singleton]
        exact ⟨by omega, by simp⟩
    · intro x hx
      rcases List.mem_cons.mp hx with rfl | hx
      · exact .inl ⟨f, by simp, hid.symm⟩
      · rcases hrest with ⟨rfl, -⟩ | ⟨r, rfl, hr, -⟩
        · cases hx
        · exact .inr (by rw [List.mem_singleton.mp hx, hr])
    · intro x hx
      rcases List.mem_cons.mp hx with rfl | hx
      · omega
      · rcases hrest with ⟨rfl, -⟩ | ⟨r, rfl, hr, -⟩
        · cases hx
        · rw [List.mem_singleton.mp hx]
          omega
    · intro a ht
      rw [hlimit]
      obtain ⟨rfl, ht⟩ := ht
      refine ⟨hstart, ?_⟩
      rcases hrest with ⟨rfl, hstop⟩ | ⟨r, rfl, -, -, hrstart, hrstop⟩
      · rwa [hstop]
      · exact ⟨hrstart, by rwa [hrstop]⟩
    · rw [hlist', noFreePair_append, noFreePair_append]
      refine ⟨⟨hpre, ?_, ?_⟩, hpost, ?_⟩
      · rcases hrest with ⟨rfl, -⟩ | ⟨r, rfl, -⟩
        · exact .singleton b
        · refine .cons_cons ?_ (.singleton r)
          simp [hused]
      · intro x _ y hy hpair
        obtain rfl := Option.some.inj hy
        rw [hused] at hpair
        exact Bool.false_ne_true hpair.2
      · intro x hx y hy hpair
        rcases hrest with ⟨rfl, -⟩ | ⟨r, rfl, -⟩
        · have hxb : x = b := by simpa [eq_comm] using hx
          rw [hxb, hused] at hpair
          exact Bool.false_ne_true hpair.1
        · -- the rest has the neighbour that the free block had
          exact hfpost f (by simp) y hy ⟨hfree, hpair.2⟩
  | @extend pre f _ _ hlist hfree hid hstart hused hsize hsmall hlist' hlimit _ hnext =>
    rw [hlist, List.append_nil, noFreePair_append] at hmerged
    have hfid := h.fresh f (by rw [hlist]; simp)
    refine h.splice hlist hlist' (by simp) ?_ hnext.ge ?_ ?_ ?_
    · intro x hx
      rw [List.mem_singleton.mp hx]
      exact .inl ⟨f, by simp, hid.symm⟩
    · intro x hx
      rw [List.mem_singleton.mp hx]
      omega
    · intro a ht
      obtain ⟨rfl, -⟩ := ht
      exact ⟨hstart, hlimit.symm⟩
    · rw [hlist', List.append_nil, noFreePair_append]
      refine ⟨hmerged.1, .singleton b, fun x _ y hy hpair => ?_⟩
      obtain rfl := Option.some.inj hy
      rw [hused] at hpair
      exact Bool.false_ne_true hpair.2
  | append _ hid hstart hused hsize _ hlist' hlimit _ hnext =>
    refine h.splice (show s.list = s.list ++ [] ++ [] by simp) hlist' (by simp) ?_ (by omega) ?_ ?_ ?_
    · intro x hx
      rw [List.mem_singleton.mp hx]
      exact .inr hid
    · intro x hx
      rw [List.mem_singleton.mp hx]
      omega
    · intro a ht
      obtain rfl : a = s.limit := ht
      exact ⟨hstart, hlimit.symm⟩
    · rw [hlist', List.append_nil, noFreePair_append]
      refine ⟨hmerged, .singleton b, fun x _ y hy hpair => ?_⟩
      obtain rfl := Option.some.inj hy
      rw [hused] at hpair
      exact Bool.false_ne_true hpair.2

theorem BestFit.mergeNext_spec {n : Block} (hn : n.isFree = true) (after : List Block)
    (hm : NoFreePair after) : ∃ taken post n', BestFit.mergeNext n after = (n', post) ∧
      after = taken ++ post ∧ (∀ y ∈ taken, y.isFree = true) ∧
      (∀ y ∈ post.head?, y.isFree = false) ∧ n'.id = n.id ∧ n'.isFree = true ∧
      ∀ b, Tiles n.stop taken b → n'.start = n.start ∧ n'.stop = b := by
  cases after with
  | nil =>
    refine ⟨[], [], n, rfl, rfl, fun y hy => (nomatch hy), fun y hy => (nomatch hy), rfl, hn, ?_⟩
    exact fun b hb => ⟨rfl, hb⟩
  | cons next rest =>
    rw [BestFit.mergeNext]
    split
    · rename_i hfree
      refine ⟨[next], rest, n.merge next, rfl, rfl, ?_, ?_, rfl, hn, ?_⟩
      · intro y hy
        rw [List.mem_singleton.mp hy, hfree]
      · -- the block after a free one is not free
        intro y hy
        cases rest with
        | nil => cases hy
        | cons z rest =>
          obtain rfl := Option.some.inj hy
          have hpair := hm.rel
          simpa [hfree] using hpair
      · rintro b ⟨hstart, rfl⟩
        have hle := n.le
        have hle' := next.le
        simp only [Block.merge]
        omega
    · rename_i hused
      refine ⟨[], next :: rest, n, rfl, rfl, fun y hy => (nomatch hy), ?_, rfl, hn, ?_⟩
      · intro y hy
        obtain rfl := Option.some.inj hy
        simpa using hused
      · exact fun b hb => ⟨rfl, hb⟩

theorem BestFit.mergePrev_spec {n : Block} (hn : n.isFree = true) (before : List Block)
    (hm : NoFreePair before) : ∃ pre taken n', BestFit.mergePrev before n = (pre, n') ∧
      before = pre ++ taken ∧ (∀ y ∈ taken, y.isFree = true) ∧
      (∀ y ∈ pre.getLast?, y.isFree = false) ∧ n'.id = n.id ∧ n'.isFree = true ∧
      ∀ a, Tiles a taken n.start → n'.start = a ∧ n'.stop = n.stop := by
  unfold BestFit.mergePrev
  cases hlast : before.getLast? with
  | none =>
    refine ⟨before, [], n, rfl, (List.append_nil _).symm, fun y hy => (nomatch hy), ?_, rfl, hn, ?_⟩
    · intro y hy
      rw [hlast] at hy
      cases hy
    · exact fun a ha => ⟨ha.symm, rfl⟩
  | some prev =>
    obtain ⟨pre, rfl⟩ := List.getLast?_eq_some_iff.mp hlast
    dsimp only
    split
    · rename_i hfree
      rw [List.dropLast_concat]
      refine ⟨pre, [prev], n.merge prev, rfl, rfl, ?_, ?_, rfl, hn, ?_⟩
      · intro y hy
        rw [List.mem_singleton.mp hy, hfree]
      · intro y hy
        have hpair := (noFreePair_append.mp hm).2.2 y hy prev rfl
        simpa [hfree] using hpair
      · rintro a ⟨hstart, hstop⟩
        have hstop : prev.stop = n.start := hstop
        have hle := n.le
        have hle' := prev.le
        simp only [Block.merge]
        omega
    · rename_i hused
      refine ⟨pre ++ [prev], [], n, rfl, (List.append_nil _).symm, fun y hy => (nomatch hy), ?_,
        rfl, hn, ?_⟩
      · intro y hy
        rw [hlast] at hy
        obtain rfl := Option.some.inj hy
        simpa using hused
      · exact fun a ha => ⟨ha.symm, rfl⟩

/-- What `free` does: the block and its free neighbours become one free block. -/
inductive Frees (s : BestFit) (id : ℕ) (s' : BestFit) : Prop
  | intro {pre before after post : List Block} {x n : Block} :
      s.list = pre ++ (before ++ x :: after) ++ post → x.id = id → x.isFree = false →
      (∀ y ∈ before ++ after, y.isFree = true) → n.id = s.nextId → n.isFree = true →
      (∀ y ∈ pre.getLast?, y.isFree = false) → (∀ y ∈ post.head?, y.isFree = false) →
      (∀ a b, Tiles a (before ++ x :: after) b → n.start = a ∧ n.stop = b) →
      s'.list = pre ++ [n] ++ post → s'.limit = s.limit → s'.align = s.align →
      s'.nextId = s.nextId + 1 → Frees s id s'

/-- A block of the list that is in use can be freed. -/
theorem BestFit.Inv.frees (h : s.Inv) (hx : x ∈ s.list) (hused : x.isFree = false) :
    ∃ s', s.free x.id = some s' ∧ Frees s x.id s' := by
  obtain ⟨before, after, hlist, hspan⟩ := span_id h.ids hx
  have hmerged := h.merged
  rw [hlist, noFreePair_append] at hmerged
  obtain ⟨hbefore, hafter, -⟩ := hmerged
  obtain ⟨taken, post, n₁, hnext, rfl, htaken, hpost, hid₁, hfree₁, htiles₁⟩ :=
    BestFit.mergeNext_spec (n := ⟨s.nextId, x.start, x.stop, true, x.le⟩) rfl after hafter.tail
  obtain ⟨pre, taken', n₂, hprev, rfl, htaken', hpre, hid₂, hfree₂, htiles₂⟩ :=
    BestFit.mergePrev_spec hfree₁ before hbefore
  refine ⟨{ s with list := pre ++ n₂ :: post, nextId := s.nextId + 1 }, ?_, ?_⟩
  · rw [BestFit.free, hspan]
    simp only [hused, Bool.false_eq_true, if_false, hnext, hprev]
  · have hparts : s.list = pre ++ (taken' ++ x :: taken) ++ post := by simp [hlist]
    refine .intro hparts rfl hused ?_ (hid₂.trans hid₁) hfree₂ hpre hpost ?_ ?_ rfl rfl rfl
    · intro y hy
      rcases List.mem_append.mp hy with hy | hy
      · exact htaken' y hy
      · exact htaken y hy
    · intro a b ht
      obtain ⟨m, hm, rfl, ht⟩ := tiles_append.mp ht
      obtain ⟨hstart₁, hstop₁⟩ := htiles₁ b ht
      have hm : Tiles a taken' n₁.start := by rwa [hstart₁]
      obtain ⟨hstart₂, hstop₂⟩ := htiles₂ a hm
      exact ⟨hstart₂, hstop₂.trans hstop₁⟩
    · simp

theorem Frees.inv {id : ℕ} (h : s.Inv) (hf : Frees s id s') : s'.Inv := by
  obtain ⟨hlist, -, -, -, hid, hfree, hpre, hpost, htiles, hlist', hlimit, -, hnext⟩ := hf
  have hmerged := h.merged
  rw [hlist, noFreePair_append, noFreePair_append] at hmerged
  refine h.splice hlist hlist' (by simp) ?_ (by omega) ?_ ?_ ?_
  · intro y hy
    rw [List.mem_singleton.mp hy]
    exact .inr hid
  · intro y hy
    rw [List.mem_singleton.mp hy]
    omega
  · intro a ht
    rw [hlimit]
    obtain ⟨m, hm, ht⟩ := tiles_append.mp ht
    obtain ⟨hstart, hstop⟩ := htiles a m hm
    exact ⟨hstart, by rwa [hstop]⟩
  · rw [hlist', noFreePair_append, noFreePair_append]
    refine ⟨⟨hmerged.1.1, .singleton _, ?_⟩, hmerged.2.1, ?_⟩
    · intro y hy _ _ hpair
      rw [hpre y hy] at hpair
      exact Bool.false_ne_true hpair.1
    · intro _ _ y hy hpair
      rw [hpost y hy] at hpair
      exact Bool.false_ne_true hpair.2

/-- Blocks in use stay as they are, and none has the identity of the new one. -/
theorem Mallocs.kept {size : ℕ} {b : Block} (h : s.Inv) (hm : Mallocs s size b s') :
    b ∈ s'.list ∧ ∀ y ∈ s.list, y.isFree = false → y ∈ s'.list ∧ y.id ≠ b.id := by
  -- the block that is taken over was free
  have hother : ∀ {f : Block}, f ∈ s.list → f.isFree = true → ∀ y ∈ s.list, y.isFree = false →
      y.id ≠ f.id := by
    intro f hf hfree y hy hused heq
    obtain rfl := List.inj_on_of_nodup_map h.ids hy hf heq
    rw [hfree] at hused
    cases hused
  cases hm with
  | @split pre post rest f _ _ hlist hfree hid _ _ _ _ hlist' =>
    refine ⟨by simp [hlist'], fun y hy hused => ⟨?_, ?_⟩⟩
    · rw [hlist] at hy
      simp only [List.mem_append, List.mem_singleton] at hy
      rcases hy with (hy | rfl) | hy
      · simp [hlist', hy]
      · rw [hfree] at hused
        cases hused
      · simp [hlist', hy]
    · rw [hid]
      exact hother (by simp [hlist]) hfree y hy hused
  | @extend pre f _ _ hlist hfree hid _ _ _ _ hlist' =>
    refine ⟨by simp [hlist'], fun y hy hused => ⟨?_, ?_⟩⟩
    · rw [hlist, List.append_nil] at hy
      rcases List.mem_append.mp hy with hy | hy
      · simp [hlist', hy]
      · rw [List.mem_singleton.mp hy, hfree] at hused
        cases hused
    · rw [hid]
      exact hother (by simp [hlist]) hfree y hy hused
  | append _ hid _ _ _ _ hlist' =>
    refine ⟨by simp [hlist'], fun y hy _ => ⟨by simp [hlist', hy], ?_⟩⟩
    have := h.fresh y hy
    omega

/-- Other blocks in use stay as they are. -/
theorem Frees.kept {id : ℕ} (hf : Frees s id s') {y : Block} (hy : y ∈ s.list)
    (hused : y.isFree = false) (hid : y.id ≠ id) : y ∈ s'.list := by
  obtain ⟨hlist, rfl, -, hmerged, -, -, -, -, -, hlist', -, -, -⟩ := hf
  rw [hlist, List.mem_append, List.mem_append] at hy
  rcases hy with (hy | hy) | hy
  · simp [hlist', hy]
  · rcases List.mem_append.mp hy with hy | hy
    · rw [hmerged y (List.mem_append_left _ hy)] at hused
      cases hused
    · rcases List.mem_cons.mp hy with rfl | hy
      · exact absurd rfl hid
      · rw [hmerged y (List.mem_append_right _ hy)] at hused
        cases hused
  · simp [hlist', hy]

end

/-! ## The planner and its callers -/

/-- The size that is allocated is the least multiple of the alignment that is large enough. -/
theorem BestFit.roundUp_isLeast {s : BestFit} (halign : 0 < s.align) (size : ℕ) :
    IsLeast {m | s.align ∣ m ∧ size ≤ m} (s.roundUp size) := by
  refine ⟨⟨Nat.dvd_mul_left .., ?_⟩, ?_⟩
  · have hdiv := Nat.div_add_mod (size + s.align - 1) s.align
    have hmod := Nat.mod_lt (size + s.align - 1) halign
    rw [roundUp, Nat.mul_comm]
    omega
  · rintro m ⟨⟨k, rfl⟩, hm⟩
    rw [roundUp, Nat.mul_comm]
    refine Nat.mul_le_mul_left _ (Nat.lt_succ_iff.mp ?_)
    rw [Nat.div_lt_iff_lt_mul halign, Nat.succ_mul, Nat.mul_comm k]
    omega

/-- What is kept about the planner and the blocks that the callers have. -/
structure Planner.Inv (align : ℕ) (p : Planner) : Prop where
  align : p.bestFit.align = align
  bestFit : p.bestFit.Inv
  ids : (p.live.map (·.block.id)).Nodup
  live : ∀ h ∈ p.live, h.block ∈ p.bestFit.list ∧ h.block.isFree = false ∧
    p.bestFit.roundUp h.size ≤ h.block.size

/-- What the callers rely on: the blocks partition the range up to the limit, and a block that
was handed out is still there, as it was, large enough, and apart from the others. -/
structure Planner.Correct (align : ℕ) (p : Planner) : Prop where
  tiles : Tiles 0 p.bestFit.list p.bestFit.limit
  merged : NoFreePair p.bestFit.list
  kept : ∀ h ∈ p.live, h.block ∈ p.bestFit.list
  fits : ∀ h ∈ p.live, ∃ r, IsLeast {m | align ∣ m ∧ h.size ≤ m} r ∧ r ≤ h.block.size
  apart : p.live.Pairwise fun h k =>
    h.block.stop ≤ k.block.start ∨ k.block.stop ≤ h.block.start

/-- Where a block would end that extends the last one, if that is free, or follows it. -/
def BestFit.needed (s : BestFit) (size : ℕ) : ℕ :=
  match s.list.getLast? with
  | some last => (if last.isFree then last.start else s.limit) + s.roundUp size
  | none => s.limit + s.roundUp size

/-- The limit grows only for a block that no free one can hold, and only as far as needed. -/
def Planner.LimitStep (p : Planner) (c : Command) (p' : Planner) : Prop :=
  p.bestFit.limit ≤ p'.bestFit.limit ∧ (p'.bestFit.limit = p.bestFit.limit ∨
    ∃ size, c = .malloc size ∧ p'.bestFit.limit = p.bestFit.needed size ∧
      ∀ b ∈ p.bestFit.list, b.isFree = true → b.size < p.bestFit.roundUp size)

section

variable {align : ℕ} {p p' : Planner} {calls : List Command}

theorem Planner.Inv.correct (halign : 0 < align) (h : p.Inv align) : p.Correct align := by
  refine ⟨h.bestFit.tiles, h.bestFit.merged, fun k hk => (h.live k hk).1, fun k hk => ?_, ?_⟩
  · refine ⟨_, ?_, (h.live k hk).2.2⟩
    have hleast := p.bestFit.roundUp_isLeast (by rwa [h.align]) k.size
    rwa [h.align] at hleast
  · have hids := List.pairwise_map.mp h.ids
    refine hids.imp_of_mem fun hx hy hne => ?_
    refine h.bestFit.tiles.apart (h.live _ hx).1 (h.live _ hy).1 fun heq => hne ?_
    rw [heq]

theorem Mallocs.align_eq {s s' : BestFit} {size : ℕ} {b : Block} (hm : Mallocs s size b s') :
    s'.align = s.align := by
  cases hm with
  | split _ _ _ _ _ _ _ _ _ halign => exact halign
  | extend _ _ _ _ _ _ _ _ _ halign => exact halign
  | append _ _ _ _ _ _ _ _ halign => exact halign

theorem Mallocs.block {s s' : BestFit} {size : ℕ} {b : Block} (hm : Mallocs s size b s') :
    b.isFree = false ∧ b.size = s.roundUp size := by
  cases hm with
  | split _ _ _ _ hused hsize => exact ⟨hused, hsize⟩
  | extend _ _ _ _ hused hsize => exact ⟨hused, hsize⟩
  | append _ _ _ hused hsize => exact ⟨hused, hsize⟩

theorem Mallocs.limitStep {s s' : BestFit} {size : ℕ} {b : Block} (h : s.Inv)
    (hm : Mallocs s size b s') : s.limit ≤ s'.limit ∧ (s'.limit = s.limit ∨
      s'.limit = s.needed size ∧ ∀ y ∈ s.list, y.isFree = true → y.size < s.roundUp size) := by
  have hle := b.le
  cases hm with
  | split _ _ _ _ _ _ _ _ hlimit => exact ⟨hlimit.ge, .inl hlimit⟩
  | @extend pre f _ _ hlist hfree _ hstart _ hsize hsmall _ hlimit =>
    have htiles := h.tiles
    rw [hlist, List.append_nil] at htiles
    obtain ⟨m, -, -, hstop⟩ := tiles_append.mp htiles
    have hstop : f.stop = s.limit := hstop
    have hless := hsmall f (by simp [hlist]) hfree
    have hf := f.le
    rw [Block.size] at hsize hless
    refine ⟨by omega, .inr ⟨?_, hsmall⟩⟩
    rw [BestFit.needed, hlist, List.append_nil, List.getLast?_concat]
    simp only [hfree, if_true]
    omega
  | append hlast _ hstart _ hsize hsmall _ hlimit =>
    rw [Block.size] at hsize
    refine ⟨by omega, .inr ⟨?_, hsmall⟩⟩
    rw [BestFit.needed]
    split
    · rename_i last hsome
      rw [hlast last (by rw [hsome]; rfl)]
      simp only [Bool.false_eq_true, if_false]
      omega
    · omega

theorem BestFit.roundUp_congr {s s' : BestFit} (h : s'.align = s.align) (size : ℕ) :
    s'.roundUp size = s.roundUp size := by
  rw [roundUp, roundUp, h]

theorem Planner.Inv.malloc (h : p.Inv align) (size : ℕ) : Planner.Inv align
    ⟨(p.bestFit.malloc size).2, p.live ++ [⟨(p.bestFit.malloc size).1, size⟩]⟩ := by
  have hm := h.bestFit.mallocs size
  obtain ⟨hmem, hkept⟩ := hm.kept h.bestFit
  have hround := BestFit.roundUp_congr hm.align_eq
  refine ⟨hm.align_eq.trans h.align, hm.inv h.bestFit, ?_, fun k hk => ?_⟩
  · rw [List.map_append, List.nodup_append']
    refine ⟨h.ids, List.nodup_singleton _, fun i hi hj => ?_⟩
    obtain ⟨k, hk, rfl⟩ := List.mem_map.mp hi
    obtain ⟨hin, hused, -⟩ := h.live k hk
    exact (hkept _ hin hused).2 (List.mem_singleton.mp hj)
  · rcases List.mem_append.mp hk with hk | hk
    · obtain ⟨hin, hused, hsize⟩ := h.live k hk
      exact ⟨(hkept _ hin hused).1, hused, (hround _).trans_le hsize⟩
    · rw [List.mem_singleton.mp hk]
      exact ⟨hmem, hm.block.1, (hround _).trans_le hm.block.2.ge⟩

/-- A live block can be freed, and the others stay. -/
theorem Planner.Inv.free (h : p.Inv align) {k : Live} (hk : k ∈ p.live) :
    ∃ s', p.bestFit.free k.block.id = some s' ∧ s'.limit = p.bestFit.limit ∧
      Planner.Inv align ⟨s', p.live.filter (·.block.id ≠ k.block.id)⟩ := by
  obtain ⟨hin, hused, -⟩ := h.live k hk
  obtain ⟨s', hfree, hf⟩ := h.bestFit.frees hin hused
  have hround : s'.align = p.bestFit.align := by
    obtain ⟨-, -, -, -, -, -, -, -, -, -, -, halign, -⟩ := hf
    exact halign
  have hlimit : s'.limit = p.bestFit.limit := by
    obtain ⟨-, -, -, -, -, -, -, -, -, -, hlimit, -, -⟩ := hf
    exact hlimit
  refine ⟨s', hfree, hlimit, hround.trans h.align, hf.inv h.bestFit, ?_, fun j hj => ?_⟩
  · exact h.ids.sublist (List.filter_sublist.map _)
  · obtain ⟨hj, hne⟩ := List.mem_filter.mp hj
    obtain ⟨hjin, hjused, hjsize⟩ := h.live j hj
    refine ⟨hf.kept hjin hjused (by simpa using hne), hjused, ?_⟩
    exact (BestFit.roundUp_congr hround _).trans_le hjsize

theorem Planner.Inv.step (h : p.Inv align) {c : Command} (hc : p.Allowed c) :
    ∃ p', p.step c = .ok p' ∧ p'.Inv align ∧ p.LimitStep c p' := by
  cases c with
  | malloc size =>
    refine ⟨_, rfl, h.malloc size, ?_⟩
    obtain ⟨hle, hlimit⟩ := (h.bestFit.mallocs size).limitStep h.bestFit
    refine ⟨hle, hlimit.imp id fun hlimit => ?_⟩
    exact ⟨size, rfl, hlimit⟩
  | free id =>
    obtain ⟨k, hk, rfl⟩ := hc
    obtain ⟨s', hfree, hlimit, hinv⟩ := h.free hk
    refine ⟨_, ?_, hinv, hlimit.ge, .inl hlimit⟩
    rw [Planner.step, hfree]

theorem Planner.Reaches.inv (h : Planner.Reaches align calls p) : p.Inv align := by
  refine Run.invariant (I := fun _ p => Planner.Inv align p) ?_ ?_ h
  · exact ⟨rfl, BestFit.init_inv align, List.nodup_nil, fun h hh => (nomatch hh)⟩
  · intro _ p c p' hinv hc hok
    obtain ⟨p'', hok', hinv', -⟩ := hinv.step hc
    rw [hok] at hok'
    obtain rfl := Except.ok.inj hok'
    exact hinv'

/-- In every run the planner stays correct, the next call that is allowed returns, and the limit
only grows as far as that call needs. -/
theorem planner_correct (halign : 0 < align) (h : Planner.Reaches align calls p) :
    p.Correct align ∧ ∀ c, p.Allowed c → ∃ p', p.step c = .ok p' ∧ p.LimitStep c p' := by
  refine ⟨h.inv.correct halign, fun c hc => ?_⟩
  obtain ⟨p', hok, -, hlimit⟩ := h.inv.step hc
  exact ⟨p', hok, hlimit⟩

/-- A block is freed between two others, and its place taken in part. -/
theorem planner_correct_taken : ∃ p : Planner, p.Correct 32 ∧ p.bestFit.limit = 160 ∧
    p.live.map (fun h => (h.block.start, h.block.stop, h.size)) = [(0, 32, 10), (96, 160, 64),
      (32, 32, 0), (32, 64, 32)] := by
  have hrun : Planner.Reaches 32
      [.malloc 10, .malloc 33, .malloc 64, .free 1, .malloc 0, .malloc 32] _ := Run.of_runAll rfl
  exact ⟨_, (planner_correct (by decide) hrun).1, rfl, rfl⟩

end

end TileLangNpuir.Carver
