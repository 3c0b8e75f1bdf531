import TileLangNpuir.Carver.Constraints
import TileLangNpuir.Carver.Factors
import TileLangNpuir.Lib.Returns
import Mathlib.Data.List.Sort

/-!
# The annealer

`AnnealCarver.get_configs_from_anneal` (`anneal/policy.py`): a random walk over tile
configurations, which are kept in units of 16. A dimension is walked either in the list of the
factors of its extent or between two bounds. The configurations that come out are rescaled.
-/

namespace TileLangNpuir.Carver

/-- `CustomTemplate`. -/
structure CustomTemplate : Type where
  initLowTile : List ℤ
  initTile : List ℤ
  onlyFactor : List Bool
  memCaps : List PolyConstraintsSet

/-- `Annealparam`. -/
structure Annealparam : Type where
  expandNeighbour : ℕ
  onestepChance : ℚ
  topk : ℕ
  number : ℕ
  steps : ℕ
  temperature : ℚ
  alpha : ℚ
  customMemMultiply : ℚ

/-- `AnnealCarver`. -/
structure AnnealCarver : Type where
  policy : List PolyConstraintsSet
  customKernel : CustomTemplate
  memCaps : List ℚ
  annealparam : Annealparam

/-- `Config`. -/
structure Config : Type where
  kwargs : List ℤ
  value : ℚ
  deriving DecidableEq

/-- The flag of a dimension with its `bound` and `tile_factors`. -/
structure Dim : Type where
  onlyFactor : Bool
  lo : ℤ
  hi : ℤ
  tileFactors : List ℤ

/-! ## Random choices -/

/-- What `random` and the functions that draw integers give at each of their calls. -/
structure Source : Type where
  unit : ℕ → ℚ
  int : ℕ → ℕ

/-- A computation that draws; the state counts the calls. -/
abbrev Search := StateT ℕ (Except Error)

namespace Source

variable (r : Source)

/-- `random.random`. -/
def random : Search ℚ := fun k => .ok (r.unit k, k + 1)

/-- `random.randint`. -/
def randint (lo hi : ℤ) : Search ℤ := fun k =>
  if hi < lo then .error (.valueError "empty range in randrange")
  else .ok (lo + r.int k % (hi - lo + 1), k + 1)

/-- `random.randrange`. -/
def randrange (n : ℕ) : Search ℤ := r.randint 0 (n - 1)

end Source

/-- Indexing; a negative index counts from the end. -/
def item {α : Type} (l : List α) (i : ℤ) : Except Error α :=
  match l[(if i < 0 then i + l.length else i).toNat]? with
  | some a => if i < -l.length then .error (.indexError "list index out of range") else .ok a
  | none => .error (.indexError "list index out of range")

/-- `bisect.bisect_left`, on a sorted list. -/
def bisectLeft (l : List ℤ) (v : ℤ) : ℤ := (l.takeWhile (· < v)).length

/-- `get_all_factors`, which has no square root for a negative number. -/
def allFactors (n : ℤ) : Except Error (List ℤ) :=
  if n < 0 then .error (.valueError "cannot convert float NaN to integer")
  else .ok ((getAllFactors n.toNat).map Int.ofNat)

/-- The loop that removes the factors below `lo`. -/
def trim (lo : ℤ) : List ℤ → Except Error (List ℤ)
  | [] => .error (.indexError "list index out of range")
  | f :: factors => if f < lo then trim lo factors else .ok (f :: factors)

/-- One round of the loop over the dimensions: `x` is the low tile and `y` the initial one.
`x >> 4` is `x / 16` and `y & 15` is `y % 16`. -/
def dim (x y : ℤ) (z : Bool) : Except Error Dim := do
  if z then
    if y % 16 ≠ 0 then throw (.valueError "16 must be a factor of the tile!")
    let lo := max 1 (x / 16)
    let factors ← allFactors (y / 16)
    let factors ← trim lo factors
    return ⟨z, 1, factors.length, factors⟩
  else
    let lo := max 1 (x / 16)
    let hi := max 1 (y / 16)
    return ⟨z, lo, hi, [1]⟩

/-- The loop over the dimensions, which are zipped strictly. -/
def dims : List ℤ → List ℤ → List Bool → Except Error (List Dim)
  | [], [], [] => pure []
  | x :: xs, y :: ys, z :: zs => do
    let d ← dim x y z
    let ds ← dims xs ys zs
    return d :: ds
  | _, _, _ => throw (.valueError "zip() arguments have different lengths")

namespace Dim

variable (d : Dim)

/-- The value that a drawn number stands for. -/
def pick (v : ℤ) : Except Error ℤ :=
  if d.onlyFactor then item d.tileFactors (v - 1) else pure v

/-- The new entry in `_get_neighbour`. -/
def neighbour (v stepP : ℤ) : Except Error ℤ :=
  if d.onlyFactor then
    let pos := bisectLeft d.tileFactors v + 1
    item d.tileFactors (max d.lo (min d.hi (pos + stepP)) - 1)
  else pure (max d.lo (min d.hi (v + stepP)))

end Dim

/-- `_get_unique_configs`: the first of those with the same `kwargs`. -/
def getUniqueConfigs (configs : List Config) : List Config :=
  configs.foldl (fun kept config =>
    if config.kwargs ∈ kept.map Config.kwargs then kept else kept ++ [config]) []

/-- `sort` by the value. -/
def sortByValue (configs : List Config) : List Config :=
  configs.insertionSort fun c c' => c.value ≤ c'.value

namespace AnnealCarver

variable (c : AnnealCarver)

/-- `check_valid`. -/
def checkValid (cfg : List ℤ) : Except Error Bool :=
  Carver.checkValid c.annealparam.customMemMultiply c.customKernel.memCaps c.memCaps cfg

/-- `_calc_value_with_constraints`. -/
def calcValue (cfg : List ℤ) : Except Error ℚ :=
  c.policy.foldlM (fun value p => do let x ← p.calcResults cfg; pure (value + x)) 0

/-- `_get_neighbour`. -/
def getNeighbour (ds : List Dim) (cfg : List ℤ) (x : ℕ) (stepP : ℤ) : Except Error (List ℤ) := do
  let d ← item ds x
  let v ← item cfg x
  let w ← d.neighbour v stepP
  return cfg.set x w

/-- The configuration that one attempt in `_neighbor` tries. -/
def attempt (r : Source) (ds : List Dim) (cfg : List ℤ) (temperature : ℚ) : Search (List ℤ) := do
  let x ← r.randrange c.customKernel.initTile.length
  let d ← item ds x
  let chance ← r.random
  if chance < c.annealparam.onestepChance then
    let step := if 1 / 2 < temperature then max 1 (d.hi / 16) else 1
    let side ← r.random
    getNeighbour ds cfg x.toNat (if side < 1 / 2 then step else -step)
  else
    let v ← r.randint d.lo d.hi
    let w ← d.pick v
    return cfg.set x.toNat w

/-- `_neighbor`, with the number of attempts that are left. -/
def neighbor (r : Source) (ds : List Dim) (cfg : List ℤ) (temperature : ℚ) : ℕ → Search (List ℤ)
  | 0 => throw (.valueError "Unable to find a neighbor within 15 attempts!")
  | times + 1 => do
    let newCfg ← c.attempt r ds cfg temperature
    let valid ← c.checkValid newCfg
    if valid then return newCfg else neighbor r ds cfg temperature times

/-- The neighbours of a configuration that are valid, for the given moves. -/
def neighbours (ds : List Dim) (cfg : List ℤ) : List (ℕ × ℤ) → Except Error (List Config)
  | [] => pure []
  | (x, stepP) :: moves => do
    let newCfg ← getNeighbour ds cfg x stepP
    let valid ← c.checkValid newCfg
    if valid then
      let value ← c.calcValue newCfg
      let rest ← neighbours ds cfg moves
      return ⟨newCfg, value⟩ :: rest
    else neighbours ds cfg moves

/-- The moves of `_neighbor_configs`: up and down, in each dimension, by each number of steps. -/
def moves : List (ℕ × ℤ) :=
  (List.range c.customKernel.initTile.length).flatMap fun x =>
    (List.range c.annealparam.expandNeighbour).flatMap fun p => [(x, (p : ℤ) + 1), (x, -((p : ℤ) + 1))]

/-- `_neighbor_configs`. -/
def neighborConfigs (ds : List Dim) (configs : List Config) : Except Error (List Config) := do
  let expanded ← configs.mapM fun config => do
    let new ← c.neighbours ds config.kwargs c.moves
    return config :: new
  return getUniqueConfigs expanded.flatten

/-- `_accept`. `math.exp` may overflow. -/
def accept (exp : ℚ → Except Error ℚ) (r : Source) (newValue oldValue temperature : ℚ) :
    Search Bool := do
  if newValue < oldValue then return true
  if temperature = 0 then throw .zeroDivisionError
  let p ← exp (-(newValue - oldValue) / temperature)
  let draw ← r.random
  return decide (draw < p)

/-- A configuration that is drawn. -/
def draw (r : Source) (ds : List Dim) : Search (List ℤ) :=
  ds.mapM fun d => do
    let v ← r.randint d.lo d.hi
    d.pick v

/-- The loop that draws `number` valid configurations, with the number of attempts left. -/
def initial (r : Source) (ds : List Dim) : ℕ → List Config → Search (List Config)
  | 0, configs => pure configs
  | attempts + 1, configs => do
    let cfg ← draw r ds
    let valid ← c.checkValid cfg
    if valid then
      let value ← c.calcValue cfg
      let configs := configs ++ [⟨cfg, value⟩]
      if configs.length = c.annealparam.number then return configs
      else initial r ds attempts configs
    else initial r ds attempts configs

/-- The body of the inner loop, for one configuration. -/
def annealStep (exp : ℚ → Except Error ℚ) (r : Source) (ds : List Dim) (temperature : ℚ)
    (config : Config) : Search Config := do
  let newCfg ← c.neighbor r ds config.kwargs temperature 15
  let newValue ← c.calcValue newCfg
  let accepted ← accept exp r newValue config.value temperature
  return if accepted then ⟨newCfg, newValue⟩ else config

/-- The loop over the steps. -/
def anneal (exp : ℚ → Except Error ℚ) (r : Source) (ds : List Dim) :
    ℕ → ℚ → List Config → Search (List Config)
  | 0, _, configs => pure configs
  | steps + 1, temperature, configs => do
    let configs ← configs.mapM (c.annealStep exp r ds temperature)
    anneal exp r ds steps (temperature * c.annealparam.alpha) configs

/-- The rescaling at the end. -/
def rescale (config : Config) : Config :=
  ⟨List.zipWith (fun y v => min y (v * 16)) c.customKernel.initTile config.kwargs, config.value⟩

/-- `get_configs_from_anneal`. -/
def getConfigsFromAnneal (exp : ℚ → Except Error ℚ) (r : Source) : Search (List Config) := do
  let ds ← dims c.customKernel.initLowTile c.customKernel.initTile c.customKernel.onlyFactor
  let configs ← c.initial r ds (c.annealparam.number * 4) []
  let configs ← c.anneal exp r ds c.annealparam.steps c.annealparam.temperature configs
  let configs := getUniqueConfigs (sortByValue configs)
  let configs ← c.neighborConfigs ds configs
  let configs := sortByValue configs
  return (configs.take c.annealparam.topk).map c.rescale

end AnnealCarver

/-! ## Dimensions -/

/-- A unit value that the walk in this dimension may have. -/
def Dim.Allows (d : Dim) (v : ℤ) : Prop :=
  if d.onlyFactor then v ∈ d.tileFactors else d.lo ≤ v ∧ v ≤ d.hi

section

variable {α : Type} {d : Dim} {ds : List Dim} {x y v w stepP lo hi : ℤ} {z : Bool} {cfg : List ℤ}

theorem item_eq_ok {l : List α} {i : ℤ} {a : α} (h : item l i = .ok a) : a ∈ l := by
  rw [item] at h
  split at h
  · rename_i b hb
    split at h
    · cases h
    · obtain rfl := Except.ok.inj h
      exact List.mem_of_getElem? hb
  · cases h

theorem item_natCast {l : List α} {k : ℕ} {a : α} (h : item l k = .ok a) : l[k]? = some a := by
  rw [item, if_neg (by omega), Int.toNat_natCast] at h
  split at h
  · rename_i b hb
    rw [if_neg (by omega)] at h
    obtain rfl := Except.ok.inj h
    exact hb
  · cases h

theorem Dim.pick_allows (hlo : d.lo ≤ v) (hhi : v ≤ d.hi) (h : d.pick v = .ok w) :
    d.Allows w := by
  rw [pick] at h
  rw [Allows]
  split at h
  · rename_i hz
    rw [if_pos hz]
    exact item_eq_ok h
  · rename_i hz
    obtain rfl := Except.ok.inj h
    rw [if_neg hz]
    exact ⟨hlo, hhi⟩

/-- A move stays within the bounds, and on the list of factors. -/
theorem Dim.neighbour_allows (hv : d.Allows v) (h : d.neighbour v stepP = .ok w) :
    d.Allows w := by
  rw [neighbour] at h
  rw [Allows] at hv ⊢
  split at h
  · rename_i hz
    rw [if_pos hz]
    exact item_eq_ok h
  · rename_i hz
    obtain rfl := Except.ok.inj h
    rw [if_neg hz] at hv ⊢
    exact ⟨le_max_left .., max_le (hv.1.trans hv.2) (min_le_left ..)⟩

theorem forall₂_set {β : Type} {R : α → β → Prop} {l : List α} {k : List β}
    (h : List.Forall₂ R l k) : ∀ {i : ℕ} {a : α} {b : β}, l[i]? = some a → R a b →
      List.Forall₂ R l (k.set i b) := by
  induction h with
  | nil => exact fun hi => (nomatch hi)
  | cons hab hrest ih =>
    intro i a b hi hR
    cases i with
    | zero =>
      obtain rfl := Option.some.inj hi
      exact .cons hR hrest
    | succ i => exact .cons hab (ih hi hR)

theorem forall₂_getElem? {β : Type} {R : α → β → Prop} {l : List α} {k : List β}
    (h : List.Forall₂ R l k) : ∀ {i : ℕ} {a : α} {b : β}, l[i]? = some a → k[i]? = some b →
      R a b := by
  induction h with
  | nil => exact fun hi => (nomatch hi)
  | cons hab hrest ih =>
    intro i a b hi hj
    cases i with
    | zero =>
      obtain rfl := Option.some.inj hi
      obtain rfl := Option.some.inj hj
      exact hab
    | succ i => exact ih hi hj

theorem forall_right {β : Type} {P : β → Prop} {l : List α} {k : List β}
    (h : List.Forall₂ (fun _ => P) l k) : ∀ b ∈ k, P b := by
  induction h with
  | nil => exact fun b hb => (nomatch hb)
  | cons hb hrest ih => exact List.forall_mem_cons.mpr ⟨hb, ih⟩

theorem getNeighbour_allows {i : ℕ} {cfg' : List ℤ} (hcfg : List.Forall₂ Dim.Allows ds cfg)
    (h : AnnealCarver.getNeighbour ds cfg i stepP = .ok cfg') :
    List.Forall₂ Dim.Allows ds cfg' := by
  rw [AnnealCarver.getNeighbour] at h
  cases hd : item ds (i : ℤ) with
  | error e =>
    rw [hd] at h
    cases h
  | ok d =>
    cases hv : item cfg (i : ℤ) with
    | error e =>
      rw [hd, hv] at h
      cases h
    | ok v =>
      cases hw : d.neighbour v stepP with
      | error e =>
        rw [hd, hv] at h
        simp only [bind, Except.bind, hw] at h
        cases h
      | ok w =>
        rw [hd, hv] at h
        simp only [bind, Except.bind, hw, pure, Except.pure, Except.ok.injEq] at h
        obtain rfl := h
        have hd := item_natCast hd
        have hv := item_natCast hv
        refine forall₂_set hcfg hd (Dim.neighbour_allows ?_ hw)
        exact forall₂_getElem? hcfg hd hv

theorem trim_eq_ok {l factors : List ℤ} (h : trim lo l = .ok factors) (hl : l.Pairwise (· < ·)) :
    ∀ f ∈ factors, lo ≤ f ∧ f ∈ l := by
  induction l with
  | nil => cases h
  | cons f l ih =>
    rw [trim] at h
    obtain ⟨hf, hl⟩ := List.pairwise_cons.mp hl
    split at h
    · exact fun g hg => ⟨(ih h hl g hg).1, List.mem_cons_of_mem f (ih h hl g hg).2⟩
    · rename_i hle
      obtain rfl := Except.ok.inj h
      intro g hg
      refine ⟨?_, hg⟩
      rcases List.mem_cons.mp hg with rfl | hg
      · exact not_lt.mp hle
      · exact (not_lt.mp hle).trans (hf g hg).le

/-- The factors of a dimension divide the extent in units, and none is below the low tile. -/
theorem dim_factors {factors : List ℤ} (hall : allFactors y = .ok factors) {kept : List ℤ}
    (htrim : trim lo factors = .ok kept) (hlo : 0 < lo) :
    ∀ f ∈ kept, lo ≤ f ∧ f ∣ y ∧ 0 < y := by
  rw [allFactors] at hall
  split at hall
  · cases hall
  · rename_i hy
    obtain rfl := Except.ok.inj hall
    rcases (not_lt.mp hy).eq_or_lt with rfl | hpos
    · -- the only factor of zero is zero, and it is removed
      rw [show (getAllFactors (0 : ℤ).toNat).map Int.ofNat = [0] from rfl, trim, if_pos hlo] at htrim
      cases htrim
    · have hn : 0 < y.toNat := by omega
      have hsorted : ((getAllFactors y.toNat).map Int.ofNat).Pairwise (· < ·) :=
        List.pairwise_map.mpr ((sorted_getAllFactors hn).imp fun h => Int.ofNat_lt.mpr h)
      intro f hf
      obtain ⟨hle, hmem⟩ := trim_eq_ok htrim hsorted f hf
      obtain ⟨d, hd, rfl⟩ := List.mem_map.mp hmem
      refine ⟨hle, ?_, hpos⟩
      have hdvd := Int.natCast_dvd_natCast.mpr ((mem_getAllFactors hn).mp hd)
      rwa [Int.toNat_of_nonneg hpos.le] at hdvd

/-- A unit value of a dimension is within the bounds, its multiple divides the extent if only
factors are taken, and no other one is rescaled to the same value. -/
theorem dim_allows (h : dim x y z = .ok d) (hv : d.Allows v) :
    max 1 (x / 16) ≤ v ∧ v ≤ max 1 (y / 16) ∧ (z = true → min y (v * 16) ∣ y) ∧
      ∀ w, d.Allows w → min y (v * 16) = min y (w * 16) → v = w := by
  rw [dim] at h
  cases z with
  | true =>
    simp only [if_true] at h
    split at h
    · cases h
    · rename_i hy
      cases hall : allFactors (y / 16) with
      | error e =>
        rw [hall] at h
        cases h
      | ok factors =>
        cases htrim : trim (max 1 (x / 16)) factors with
        | error e =>
          simp only [hall, htrim, bind, Except.bind] at h
          cases h
        | ok kept =>
          simp only [hall, htrim, bind, Except.bind, pure, Except.pure, Except.ok.injEq] at h
          subst h
          rw [Dim.Allows, if_pos rfl] at hv
          have hkept := dim_factors hall htrim (by omega)
          -- a factor of the extent in units, times 16, is within the extent
          have hcap : ∀ w ∈ kept, min y (w * 16) = w * 16 := by
            intro w hw
            have hle := Int.le_of_dvd (hkept w hw).2.2 (hkept w hw).2.1
            omega
          obtain ⟨hle, hdvd, hpos⟩ := hkept v hv
          refine ⟨hle, ?_, fun _ => ?_, fun w hw heq => ?_⟩
          · have := Int.le_of_dvd hpos hdvd
            omega
          · rw [hcap v hv]
            have hy : y = y / 16 * 16 := by omega
            rw [hy]
            exact Int.mul_dvd_mul_right _ hdvd
          · rw [Dim.Allows, if_pos rfl] at hw
            rw [hcap v hv, hcap w hw] at heq
            omega
  | false =>
    simp only [Bool.false_eq_true, if_false, pure, Except.pure, Except.ok.injEq] at h
    subst h
    simp only [Dim.Allows, Bool.false_eq_true, if_false] at hv ⊢
    refine ⟨hv.1, hv.2, fun hz => (nomatch hz), fun w hw heq => ?_⟩
    omega

theorem dims_spec : ∀ {xs ys : List ℤ} {zs : List Bool} {ds : List Dim}, dims xs ys zs = .ok ds →
    (xs.length = ds.length ∧ ys.length = ds.length ∧ zs.length = ds.length) ∧
      ∀ (i : ℕ) d, ds[i]? = some d → ∃ x y z,
        xs[i]? = some x ∧ ys[i]? = some y ∧ zs[i]? = some z ∧ dim x y z = .ok d := by
  intro xs ys zs
  induction xs, ys, zs using dims.induct with
  | case1 =>
    intro ds h
    obtain rfl := Except.ok.inj h
    exact ⟨⟨rfl, rfl, rfl⟩, fun i d hd => (nomatch hd)⟩
  | case2 x xs y ys z zs ih =>
    intro ds h
    rw [dims] at h
    cases hd : dim x y z with
    | error e =>
      rw [hd] at h
      cases h
    | ok d =>
      cases hds : dims xs ys zs with
      | error e =>
        simp only [hd, hds, bind, Except.bind] at h
        cases h
      | ok rest =>
        simp only [hd, hds, bind, Except.bind, pure, Except.pure, Except.ok.injEq] at h
        subst h
        obtain ⟨⟨hx, hy, hz⟩, hrest⟩ := ih hds
        refine ⟨⟨congrArg Nat.succ hx, congrArg Nat.succ hy, congrArg Nat.succ hz⟩, fun i e he => ?_⟩
        cases i with
        | zero =>
          obtain rfl := Option.some.inj he
          exact ⟨x, y, z, rfl, rfl, rfl, hd⟩
        | succ i => exact hrest i e he
  | case3 xs ys zs hnil hcons =>
    intro ds h
    rw [dims] at h
    · cases h
    · exact hnil
    · exact hcons

end

/-! ## The walk -/

section

variable {c : AnnealCarver} {exp : ℚ → Except Error ℚ} {r : Source} {ds : List Dim}
  {config : Config} {configs : List Config}

/-- A configuration as the walk keeps it: within the bounds, valid, with its cost. -/
structure Config.Sound (c : AnnealCarver) (ds : List Dim) (config : Config) : Prop where
  allows : List.Forall₂ Dim.Allows ds config.kwargs
  valid : c.checkValid config.kwargs = .ok true
  value : c.calcValue config.kwargs = .ok config.value

theorem returns_randint (lo hi : ℤ) : Returns (r.randint lo hi) fun v => lo ≤ v ∧ v ≤ hi := by
  intro k v k' h
  rw [Source.randint] at h
  split at h
  · cases h
  · cases h
    have hnonneg := Int.emod_nonneg (r.int k : ℤ) (b := hi - lo + 1) (by omega)
    have hlt := Int.emod_lt_of_pos (r.int k : ℤ) (b := hi - lo + 1) (by omega)
    omega

theorem returns_draw : Returns (AnnealCarver.draw r ds) (List.Forall₂ Dim.Allows ds) := by
  refine returns_mapM fun d _ => ?_
  refine (returns_randint d.lo d.hi).bind fun v hv => ?_
  exact returns_lift fun w hw => Dim.pick_allows hv.1 hv.2 hw

theorem returns_attempt {cfg : List ℤ} (hcfg : List.Forall₂ Dim.Allows ds cfg)
    (temperature : ℚ) :
    Returns (c.attempt r ds cfg temperature) (List.Forall₂ Dim.Allows ds) := by
  refine (returns_randint _ _).bind fun x hx => ?_
  refine (returns_lift (P := fun d => ds[x.toNat]? = some d) fun d hd => ?_).bind fun d hd => ?_
  · refine item_natCast ?_
    rwa [Int.toNat_of_nonneg hx.1]
  refine (returns_true _).bind fun chance _ => ?_
  refine Returns.ite (fun _ => ?_) fun _ => ?_
  · refine (returns_true _).bind fun side _ => ?_
    exact returns_lift fun cfg' h => getNeighbour_allows hcfg h
  · refine (returns_randint _ _).bind fun v hv => ?_
    refine (returns_lift fun w hw => Dim.pick_allows hv.1 hv.2 hw).bind fun w hw => ?_
    exact returns_pure (forall₂_set hcfg hd hw)

theorem returns_neighbor {cfg : List ℤ} (hcfg : List.Forall₂ Dim.Allows ds cfg)
    (temperature : ℚ) (times : ℕ) : Returns (c.neighbor r ds cfg temperature times) fun cfg' =>
      List.Forall₂ Dim.Allows ds cfg' ∧ c.checkValid cfg' = .ok true := by
  induction times with
  | zero => exact returns_throw _
  | succ times ih =>
    rw [AnnealCarver.neighbor]
    refine (returns_attempt hcfg temperature).bind fun cfg' hcfg' => ?_
    refine (returns_lift fun valid hvalid => hvalid).bind fun valid hvalid => ?_
    refine Returns.ite (fun htrue => ?_) fun _ => ih
    rw [htrue] at hvalid
    exact returns_pure ⟨hcfg', hvalid⟩

theorem returns_initial (attempts : ℕ) : ∀ {configs : List Config},
    (∀ config ∈ configs, config.Sound c ds) →
      Returns (c.initial r ds attempts configs) fun configs =>
        ∀ config ∈ configs, config.Sound c ds := by
  induction attempts with
  | zero => exact fun hconfigs => returns_pure hconfigs
  | succ attempts ih =>
    intro configs hconfigs
    rw [AnnealCarver.initial]
    refine returns_draw.bind fun cfg hcfg => ?_
    refine (returns_lift fun valid hvalid => hvalid).bind fun valid hvalid => ?_
    refine Returns.ite (fun htrue => ?_) fun _ => ih hconfigs
    rw [htrue] at hvalid
    refine (returns_lift fun value hvalue => hvalue).bind fun value hvalue => ?_
    have hmore : ∀ config ∈ configs ++ [⟨cfg, value⟩], config.Sound c ds := by
      intro config hconfig
      rcases List.mem_append.mp hconfig with hconfig | hconfig
      · exact hconfigs config hconfig
      · rw [List.mem_singleton.mp hconfig]
        exact ⟨hcfg, hvalid, hvalue⟩
    exact Returns.ite (fun _ => returns_pure hmore) fun _ => ih hmore

/-- Worse configurations may be accepted, but only sound ones. -/
theorem returns_annealStep (hconfig : config.Sound c ds) (temperature : ℚ) :
    Returns (c.annealStep exp r ds temperature config) (Config.Sound c ds) := by
  refine (returns_neighbor hconfig.allows temperature 15).bind fun cfg hcfg => ?_
  refine (returns_lift fun value hvalue => hvalue).bind fun value hvalue => ?_
  refine (returns_true _).bind fun accepted _ => ?_
  refine returns_pure ?_
  split
  · exact ⟨hcfg.1, hcfg.2, hvalue⟩
  · exact hconfig

theorem returns_anneal (steps : ℕ) : ∀ {temperature : ℚ} {configs : List Config},
    (∀ config ∈ configs, config.Sound c ds) →
      Returns (c.anneal exp r ds steps temperature configs) fun configs =>
        ∀ config ∈ configs, config.Sound c ds := by
  induction steps with
  | zero => exact fun hconfigs => returns_pure hconfigs
  | succ steps ih =>
    intro temperature configs hconfigs
    rw [AnnealCarver.anneal]
    have hstep : Returns (configs.mapM (c.annealStep exp r ds temperature))
        (List.Forall₂ (fun _ => Config.Sound c ds) configs) := returns_mapM fun config hconfig =>
      returns_annealStep (hconfigs config hconfig) temperature
    refine hstep.bind fun configs' hconfigs' => ih fun config hconfig => ?_
    exact forall_right hconfigs' config hconfig

/-! ## The expansion -/

theorem getUniqueConfigs_spec (configs : List Config) :
    ((getUniqueConfigs configs).map Config.kwargs).Nodup ∧
      ∀ config ∈ getUniqueConfigs configs, config ∈ configs := by
  unfold getUniqueConfigs
  induction configs using List.reverseRecOn with
  | nil => exact ⟨List.nodup_nil, fun config h => (nomatch h)⟩
  | append_singleton configs config ih =>
    rw [List.foldl_append, List.foldl_cons, List.foldl_nil]
    obtain ⟨hnodup, hmem⟩ := ih
    split
    · exact ⟨hnodup, fun config' h => List.mem_append_left _ (hmem config' h)⟩
    · rename_i hnew
      refine ⟨?_, fun config' h => ?_⟩
      · rw [List.map_append, List.nodup_append']
        refine ⟨hnodup, List.nodup_singleton _, fun cfg hcfg hlast => hnew ?_⟩
        rwa [← List.mem_singleton.mp hlast]
      · rcases List.mem_append.mp h with h | h
        · exact List.mem_append_left _ (hmem config' h)
        · exact List.mem_append_right _ h

theorem neighbours_sound {cfg : List ℤ} (hcfg : List.Forall₂ Dim.Allows ds cfg) :
    ∀ {moves : List (ℕ × ℤ)} {new : List Config}, c.neighbours ds cfg moves = .ok new →
      ∀ config ∈ new, config.Sound c ds := by
  intro moves
  induction moves with
  | nil =>
    intro new h config hconfig
    obtain rfl := Except.ok.inj h
    cases hconfig
  | cons move moves ih =>
    intro new h
    rw [AnnealCarver.neighbours] at h
    cases hnew : AnnealCarver.getNeighbour ds cfg move.1 move.2 with
    | error e =>
      rw [hnew] at h
      cases h
    | ok newCfg =>
      simp only [hnew, bind, Except.bind] at h
      cases hvalid : c.checkValid newCfg with
      | error e =>
        rw [hvalid] at h
        cases h
      | ok valid =>
        simp only [hvalid] at h
        split at h
        · rename_i htrue
          rw [htrue] at hvalid
          cases hvalue : c.calcValue newCfg with
          | error e =>
            rw [hvalue] at h
            cases h
          | ok value =>
            cases hrest : c.neighbours ds cfg moves with
            | error e =>
              simp only [hvalue, hrest] at h
              cases h
            | ok rest =>
              simp only [hvalue, hrest, pure, Except.pure, Except.ok.injEq] at h
              subst h
              refine List.forall_mem_cons.mpr ⟨?_, ih hrest⟩
              exact ⟨getNeighbour_allows hcfg hnew, hvalid, hvalue⟩
        · exact ih h

theorem forall₂_of_mapM {α β : Type} {f : α → Except Error β} {l : List α} :
    ∀ {k : List β}, l.mapM f = .ok k → List.Forall₂ (fun a b => f a = .ok b) l k := by
  induction l with
  | nil =>
    intro k h
    obtain rfl := Except.ok.inj h
    exact .nil
  | cons a l ih =>
    intro k h
    rw [List.mapM_cons] at h
    cases ha : f a with
    | error e =>
      rw [ha] at h
      cases h
    | ok b =>
      cases hl : l.mapM f with
      | error e =>
        simp only [ha, hl, bind, Except.bind] at h
        cases h
      | ok rest =>
        simp only [ha, hl, bind, Except.bind, pure, Except.pure, Except.ok.injEq] at h
        subst h
        exact .cons ha (ih hl)

theorem neighborConfigs_spec (hconfigs : ∀ config ∈ configs, config.Sound c ds)
    {expanded : List Config} (h : c.neighborConfigs ds configs = .ok expanded) :
    (expanded.map Config.kwargs).Nodup ∧ ∀ config ∈ expanded, config.Sound c ds := by
  rw [AnnealCarver.neighborConfigs] at h
  cases hlists : configs.mapM (fun config => do
      let new ← c.neighbours ds config.kwargs c.moves
      return config :: new) with
  | error e =>
    rw [hlists] at h
    cases h
  | ok lists =>
    rw [hlists] at h
    obtain rfl := Except.ok.inj h
    obtain ⟨hnodup, hmem⟩ := getUniqueConfigs_spec lists.flatten
    refine ⟨hnodup, fun config hconfig => ?_⟩
    obtain ⟨list, hlist, hconfig⟩ := List.mem_flatten.mp (hmem config hconfig)
    have hsound : List.Forall₂ (fun _ list => ∀ config ∈ list, config.Sound c ds) configs lists := by
      refine ((List.forall₂_and_left _ _).mpr ⟨hconfigs, forall₂_of_mapM hlists⟩).imp ?_
      rintro config list ⟨hsound, heq⟩
      cases hnew : c.neighbours ds config.kwargs c.moves with
      | error e =>
        rw [hnew] at heq
        cases heq
      | ok new =>
        rw [hnew] at heq
        obtain rfl := Except.ok.inj heq
        exact List.forall_mem_cons.mpr ⟨hsound, neighbours_sound hsound.allows hnew⟩
    exact forall_right hsound list hlist config hconfig

/-- What a returned configuration is: a unit configuration that is valid and within the bounds,
times 16 and capped, with its cost. -/
structure AnnealCarver.Legal (c : AnnealCarver) (u : List ℤ) (config : Config) : Prop where
  valid : c.checkValid u = .ok true
  cost : c.calcValue u = .ok config.value
  scaled : config.kwargs =
    List.zipWith (fun y v => min y (v * 16)) c.customKernel.initTile u
  lengths : c.customKernel.initLowTile.length = u.length ∧
    c.customKernel.initTile.length = u.length ∧ c.customKernel.onlyFactor.length = u.length
  bounds : ∀ (i : ℕ) x y v, c.customKernel.initLowTile[i]? = some x →
    c.customKernel.initTile[i]? = some y → u[i]? = some v →
      max 1 (x / 16) ≤ v ∧ v ≤ max 1 (y / 16)
  divides : ∀ (i : ℕ) y w, c.customKernel.onlyFactor[i]? = some true →
    c.customKernel.initTile[i]? = some y → config.kwargs[i]? = some w → w ∣ y

/-- What `dims` says about the entries of a unit configuration. -/
theorem dims_entry {xs ys : List ℤ} {zs : List Bool} {u : List ℤ} (hds : dims xs ys zs = .ok ds)
    (hu : List.Forall₂ Dim.Allows ds u) {i : ℕ} {v : ℤ} (hv : u[i]? = some v) :
    ∃ d x y z, ds[i]? = some d ∧ xs[i]? = some x ∧ ys[i]? = some y ∧ zs[i]? = some z ∧
      dim x y z = .ok d ∧ d.Allows v := by
  have hlt : i < ds.length := by
    rw [hu.length_eq]
    exact (List.getElem?_eq_some_iff.mp hv).1
  have hd : ds[i]? = some ds[i] := List.getElem?_eq_getElem hlt
  obtain ⟨x, y, z, hx, hy, hz, hdim⟩ := (dims_spec hds).2 i _ hd
  exact ⟨_, x, y, z, hd, hx, hy, hz, hdim, forall₂_getElem? hu hd hv⟩

theorem Config.Sound.legal (h : config.Sound c ds) (hds : dims c.customKernel.initLowTile
    c.customKernel.initTile c.customKernel.onlyFactor = .ok ds) :
    c.Legal config.kwargs (c.rescale config) := by
  obtain ⟨⟨hxs, hys, hzs⟩, -⟩ := dims_spec hds
  have hlen := h.allows.length_eq
  refine ⟨h.valid, h.value, rfl, ⟨hxs.trans hlen, hys.trans hlen, hzs.trans hlen⟩, ?_, ?_⟩
  · intro i x y v hx hy hv
    obtain ⟨d, x', y', z, -, hx', hy', -, hdim, hallows⟩ := dims_entry hds h.allows hv
    obtain rfl := Option.some.inj (hx.symm.trans hx')
    obtain rfl := Option.some.inj (hy.symm.trans hy')
    obtain ⟨hlo, hhi, -⟩ := dim_allows hdim hallows
    exact ⟨hlo, hhi⟩
  · intro i y w hz hy hw
    rw [AnnealCarver.rescale, List.getElem?_zipWith, hy] at hw
    cases hv : config.kwargs[i]? with
    | none =>
      rw [hv] at hw
      cases hw
    | some v =>
      rw [hv] at hw
      obtain rfl := Option.some.inj hw
      obtain ⟨d, x, y', z, -, -, hy', hz', hdim, hallows⟩ := dims_entry hds h.allows hv
      obtain rfl := Option.some.inj (hy.symm.trans hy')
      exact (dim_allows hdim hallows).2.2.1 (Option.some.inj (hz'.symm.trans hz))

/-- Rescaling keeps configurations apart. -/
theorem rescale_injective (hds : dims c.customKernel.initLowTile c.customKernel.initTile
    c.customKernel.onlyFactor = .ok ds) {config' : Config} (h : config.Sound c ds)
    (h' : config'.Sound c ds) (heq : (c.rescale config).kwargs = (c.rescale config').kwargs) :
    config.kwargs = config'.kwargs := by
  refine List.ext_getElem? fun i => ?_
  cases hv : config.kwargs[i]? with
  | none =>
    refine (List.getElem?_eq_none ?_).symm
    rw [← h'.allows.length_eq, h.allows.length_eq]
    exact List.getElem?_eq_none_iff.mp hv
  | some v =>
    obtain ⟨d, x, y, z, hd, -, hy, -, hdim, hallows⟩ := dims_entry hds h.allows hv
    cases hw : config'.kwargs[i]? with
    | none =>
      have hle := List.getElem?_eq_none_iff.mp hw
      have hlt := (List.getElem?_eq_some_iff.mp hd).1
      rw [← h'.allows.length_eq] at hle
      omega
    | some w =>
      have hi := congrArg (·[i]?) heq
      simp only [AnnealCarver.rescale, List.getElem?_zipWith, hy, hv, hw, Option.some.injEq] at hi
      rw [(dim_allows hdim hallows).2.2.2 w (forall₂_getElem? h'.allows hd hw) hi]

theorem sortByValue_spec (configs : List Config) : (sortByValue configs).Perm configs ∧
    (sortByValue configs).Pairwise fun a b => a.value ≤ b.value := by
  have htotal : Std.Total fun a b : Config => a.value ≤ b.value := ⟨fun a b => le_total ..⟩
  have htrans : IsTrans Config fun a b => a.value ≤ b.value := ⟨fun a b c => le_trans⟩
  exact ⟨List.perm_insertionSort .., List.pairwise_insertionSort ..⟩

/-- Whatever is drawn, only legal configurations are returned, at most `topk` of them, no two the
same, by increasing cost. -/
theorem anneal_legal (c : AnnealCarver) (exp : ℚ → Except Error ℚ) (r : Source) (k k' : ℕ)
    (configs : List Config) (h : c.getConfigsFromAnneal exp r k = .ok (configs, k')) :
    configs.length ≤ c.annealparam.topk ∧ (configs.map Config.kwargs).Nodup ∧
      (configs.Pairwise fun a b => a.value ≤ b.value) ∧
      ∀ config ∈ configs, ∃ u, c.Legal u config := by
  refine (?_ : Returns (c.getConfigsFromAnneal exp r) fun configs =>
    configs.length ≤ c.annealparam.topk ∧ (configs.map Config.kwargs).Nodup ∧
      (configs.Pairwise fun a b => a.value ≤ b.value) ∧
      ∀ config ∈ configs, ∃ u, c.Legal u config) k configs k' h
  refine (returns_lift fun ds hds => hds).bind fun ds hds => ?_
  have hnone : ∀ config ∈ ([] : List Config), config.Sound c ds :=
    fun config hconfig => (nomatch hconfig)
  refine (returns_initial (c.annealparam.number * 4) hnone).bind fun first hfirst => ?_
  refine (returns_anneal c.annealparam.steps hfirst).bind fun walked hwalked => ?_
  refine (returns_lift fun expanded hexpanded => hexpanded).bind fun expanded hexpanded => ?_
  refine returns_pure ?_
  have hunique : ∀ config ∈ getUniqueConfigs (sortByValue walked), config.Sound c ds := by
    intro config hconfig
    have hmem := (getUniqueConfigs_spec _).2 config hconfig
    exact hwalked config ((sortByValue_spec walked).1.mem_iff.mp hmem)
  obtain ⟨hnodup, hsound⟩ := neighborConfigs_spec hunique hexpanded
  obtain ⟨hperm, hsorted⟩ := sortByValue_spec expanded
  have htake : ∀ config ∈ (sortByValue expanded).take c.annealparam.topk, config.Sound c ds :=
    fun config hconfig => hsound config (hperm.mem_iff.mp (List.mem_of_mem_take hconfig))
  refine ⟨?_, ?_, ?_, ?_⟩
  · rw [List.length_map]
    exact List.length_take_le ..
  · rw [List.map_map]
    have hkept : (((sortByValue expanded).take c.annealparam.topk).map Config.kwargs).Nodup :=
      ((hperm.map Config.kwargs).nodup_iff.mpr hnodup).sublist ((List.take_sublist ..).map _)
    refine List.pairwise_map.mpr ((List.pairwise_map.mp hkept).imp_of_mem ?_)
    intro a b ha hb hne heq
    exact hne (rescale_injective hds (htake a ha) (htake b hb) heq)
  · exact List.pairwise_map.mpr (hsorted.sublist (List.take_sublist ..))
  · intro config hconfig
    obtain ⟨unscaled, hunscaled, rfl⟩ := List.mem_map.mp hconfig
    exact ⟨_, (htake unscaled hunscaled).legal hds⟩

/-- Two dimensions, a factor of 96 and anything up to 40, whose sum is the cost and bounded. -/
def sumCarver : AnnealCarver where
  policy := [⟨[], [], [⟨[1, 2], [], some fun idx => .ok idx.sum⟩], []⟩]
  customKernel := ⟨[16, 16], [96, 40], [true, false],
    [⟨[], [], [⟨[1, 2], [2], some fun idx => .ok idx.sum⟩], []⟩]⟩
  memCaps := [160]
  annealparam := ⟨1, 7 / 10, 3, 2, 1, 100, 1, 1⟩

theorem anneal_legal_sum : ∃ configs k', sumCarver.getConfigsFromAnneal (fun _ => .ok 1)
    ⟨fun k => (k % 2 : ℕ), fun k => k⟩ 0 = .ok (configs, k') ∧
      configs.map Config.kwargs = [[16, 16], [16, 32], [32, 32]] ∧
      ∀ config ∈ configs, ∃ u, sumCarver.Legal u config := by
  have hrun : sumCarver.getConfigsFromAnneal (fun _ => .ok 1) ⟨fun k => (k % 2 : ℕ), fun k => k⟩ 0 =
      .ok ([⟨[16, 16], 32⟩, ⟨[16, 32], 48⟩, ⟨[32, 32], 64⟩], 12) := by decide +kernel
  exact ⟨_, _, hrun, rfl, (anneal_legal _ _ _ _ _ _ hrun).2.2.2⟩

end

end TileLangNpuir.Carver
