import Mathlib.Data.List.Infix
import Mathlib.Logic.Function.Basic

/-!
# The compile key

What `cached_npu` compiles, and the key it looks a kernel up by
(`tilelang/cache/kernel_cache.py`, `tilelang/engine/lower.py`, `tilelang/engine/phase.py`).
The key is made of the arguments of the request. Compiling also reads the process
environment and the device. Digests are left out: a digest stands for the data it is
taken of.
-/

namespace TileLangNpuir.KernelCache

/-! ## The environment -/

/-- What compiling finds around it. -/
structure Environment : Type where
  /-- `os.environ` -/
  environ : String → Option String
  /-- `check_cuda_availability` -/
  cuda : Bool
  /-- `check_hip_availability` -/
  hip : Bool
  /-- `shutil.which('bishengir-compile')` -/
  bishengir : Bool
  /-- `NPUUtils().get_arch()`, where it does not raise -/
  arch : Option String

/-- The exceptions that end a request. -/
inductive Failure : Type where
  | noTarget | noArch | invalidSimt | outIdxBounds
  deriving DecidableEq

/-- The target kinds that `auto` can give. -/
inductive Target : Type where
  | cuda | hip | npuir
  deriving DecidableEq

/-- `determine_target("auto")`. -/
def determineTarget (e : Environment) : Except Failure Target :=
  if e.cuda then .ok .cuda
  else if e.hip then .ok .hip
  else if e.bishengir then .ok .npuir
  else .error .noTarget

/-- `_is_a5_device`. -/
def isA5Device (e : Environment) : Except Failure Bool :=
  match e.arch with
  | none => .error .noArch
  | some arch => .ok ("910_95".toList <:+: arch.toList ∨ "950".toList <:+: arch.toList)

/-- `str.isspace`. -/
def isSpace (c : Char) : Bool :=
  let n := c.toNat
  9 ≤ n && n ≤ 13 || 28 ≤ n && n ≤ 32 || n = 0x85 || n = 0xa0 || n = 0x1680 ||
    0x2000 ≤ n && n ≤ 0x200a || n = 0x2028 || n = 0x2029 || n = 0x202f || n = 0x205f || n = 0x3000

/-- `value.strip().lower()`. The words it is compared with have only letters that no
other letter is lowered to. -/
def normalized (s : String) : List Char :=
  ((s.toList.dropWhile isSpace).reverse.dropWhile isSpace).reverse.map Char.toLower

/-- One of some words. -/
def isWord (s : String) (words : List String) : Bool := (words.map String.toList).contains (normalized s)

/-- `_parse_bool_env`. -/
def parseBoolEnv (e : Environment) (name : String) (default : Bool) : Except Failure Bool :=
  match e.environ name with
  | none => .ok default
  | some value =>
    if isWord value ["1", "true", "t", "yes", "y", "on"] then .ok true
    else if isWord value ["0", "false", "f", "no", "n", "off"] then .ok false
    else .error .invalidSimt

/-- `device_codegen` takes the expert mode. -/
def isExpertMode (e : Environment) : Bool :=
  match e.environ "TILELANG_ASCEND_MODE" with
  | none => true
  | some mode => isWord mode ["expert", "exp", "e"]

/-- `supports_native_bf16`: no chip does. -/
def supportsNativeBf16 : Bool := false

/-- What lowering decides by its surroundings. -/
structure Settings : Type where
  target : Target
  a5 : Bool
  simtIndirectLoad : Bool
  bf16Legalize : Bool
  expertMode : Bool
  deriving DecidableEq

/-- The readings of `lower`, `OptimizeForTarget` and `device_codegen`. Targets other than
`npuir` read none of them. -/
def readSettings (e : Environment) : Except Failure Settings := do
  let target ← determineTarget e
  if target ≠ .npuir then
    return ⟨target, false, false, false, false⟩
  let a5 ← isA5Device e
  let simt ← if a5 then parseBoolEnv e "TILELANG_ENABLE_SIMT" false else pure false
  return ⟨target, a5, simt, !supportsNativeBf16, isExpertMode e⟩

/-! ## Requests -/

/-- `pass_configs`, by its items in key order; `C` is the type of values. -/
abbrev PassConfigs (C : Type) : Type := List (String × C)

/-- `out_idx`; a tuple is a list. -/
inductive OutIdx : Type where
  | int (i : ℤ)
  | list (is : List ℤ)

/-- The arguments of `cached_npu`. `F` is the type of functions. -/
structure Request (F C : Type) : Type where
  func : F
  outIdx : Option OutIdx
  executionBackend : String
  target : String
  targetHost : Option String
  verbose : Bool
  passConfigs : Option (PassConfigs C)

/-- One index of `_normalize_out_idx`. -/
def normalizeIndex (total : ℕ) (i : ℤ) : Except Failure ℕ :=
  let idx := if 0 ≤ i then i else total + i
  if idx < 0 ∨ total ≤ idx then .error .outIdxBounds else .ok idx.toNat

/-- `_normalize_out_idx`. -/
def normalizeOutIdx (total : ℕ) : Option OutIdx → Except Failure (Option (List ℕ))
  | none => .ok none
  | some (.int i) => return some (← [i].mapM (normalizeIndex total))
  | some (.list is) => return some (← is.mapM (normalizeIndex total))

/-- What `_generate_compile_key` takes the digest of. -/
structure KeyData (C : Type) : Type where
  func : String
  outIdx : List ℕ
  target : String
  targetHost : Option String
  executionBackend : String
  verbose : Bool
  passConfigs : Option (PassConfigs C)
  deriving DecidableEq

section

variable {F C : Type} (script : F → String) (numParams : F → ℕ)

/-- `_generate_compile_key`, for the normalized indices. -/
def Request.keyData (r : Request F C) (outIdx : Option (List ℕ)) : KeyData C where
  func := script r.func
  outIdx := outIdx.getD []
  target := r.target
  targetHost := r.targetHost.bind fun host => if host = "" then none else some host
  executionBackend := r.executionBackend
  verbose := r.verbose
  passConfigs := r.passConfigs.bind fun configs => if configs.isEmpty then none else some configs

/-- The key of a request. -/
def Request.compileKey (r : Request F C) : Except Failure (KeyData C) :=
  return r.keyData script (← normalizeOutIdx (numParams r.func) r.outIdx)

/-- Everything a kernel is compiled from. -/
structure CompileInputs (F C : Type) : Type where
  func : F
  outIdx : Option (List ℕ)
  passConfigs : PassConfigs C
  settings : Settings

/-- What compiling a request afresh goes by. -/
def Request.compileInputs (r : Request F C) (e : Environment) : Except Failure (CompileInputs F C) :=
  return {
    outIdx := ← normalizeOutIdx (numParams r.func) r.outIdx
    settings := ← readSettings e
    func := r.func
    passConfigs := r.passConfigs.getD [] }

end

/-! ## Equal keys -/

section

variable {F C : Type} {script : F → String} {numParams : F → ℕ} {r r' : Request F C}
  {e e' : Environment} {k : KeyData C}

theorem compileKey_ok (h : r.compileKey script numParams = .ok k) :
    ∃ outIdx, normalizeOutIdx (numParams r.func) r.outIdx = .ok outIdx ∧
      k = r.keyData script outIdx := by
  rw [Request.compileKey] at h
  cases hidx : normalizeOutIdx (numParams r.func) r.outIdx with
  | error f =>
    rw [hidx] at h
    cases h
  | ok outIdx =>
    rw [hidx] at h
    exact ⟨outIdx, rfl, (Except.ok.inj h).symm⟩

theorem normalizeOutIdx_ok {total : ℕ} {outIdx : Option OutIdx} {o : Option (List ℕ)}
    (h : normalizeOutIdx total outIdx = .ok o) : o = none ↔ outIdx = none := by
  rcases outIdx with _ | (i | is)
  · obtain rfl := Except.ok.inj h
    simp
  · rw [normalizeOutIdx] at h
    cases hm : [i].mapM (normalizeIndex total) with
    | error f =>
      rw [hm] at h
      cases h
    | ok ks =>
      rw [hm] at h
      obtain rfl := Except.ok.inj h
      simp
  · rw [normalizeOutIdx] at h
    cases hm : is.mapM (normalizeIndex total) with
    | error f =>
      rw [hm] at h
      cases h
    | ok ks =>
      rw [hm] at h
      obtain rfl := Except.ok.inj h
      simp

/-- Requests with one key ask for one function and one configuration. -/
theorem keyData_inj (hscript : Function.Injective script) {o o' : Option (List ℕ)}
    (h : r.keyData script o = r'.keyData script o') :
    r.func = r'.func ∧ o.getD [] = o'.getD [] ∧ r.passConfigs.getD [] = r'.passConfigs.getD [] := by
  refine ⟨hscript (congrArg KeyData.func h), congrArg KeyData.outIdx h, ?_⟩
  have hconfigs := congrArg (fun k => k.passConfigs.getD []) h
  have hget : ∀ configs : Option (PassConfigs C),
      (configs.bind fun c => if c.isEmpty then none else some c).getD [] = configs.getD [] := by
    intro configs
    rcases configs with _ | (_ | ⟨c, cs⟩) <;> rfl
  simpa only [Request.keyData, hget] using hconfigs

theorem compileInputs_of_ok {o : Option (List ℕ)}
    (ho : normalizeOutIdx (numParams r.func) r.outIdx = .ok o) :
    r.compileInputs numParams e =
      (readSettings e).map fun s => ⟨r.func, o, r.passConfigs.getD [], s⟩ := by
  rw [Request.compileInputs, ho]
  cases readSettings e <;> rfl

/-- The key tells lists of outputs apart, but not `None` from the empty list. -/
theorem outIdx_eq_of_getD {o o' : Option (List ℕ)} (h : o.getD [] = o'.getD [])
    (hnone : o = none ↔ o' = none) : o = o' := by
  rcases o with _ | ks
  · exact (hnone.mp rfl).symm
  · rcases o' with _ | ks'
    · exact absurd (hnone.mpr rfl) (Option.some_ne_none ks)
    · exact congrArg some h

/-- Requests with one key compile to the same where their surroundings are read alike. -/
theorem compileInputs_eq_of_settings (hscript : Function.Injective script)
    (hr : r.compileKey script numParams = .ok k) (hr' : r'.compileKey script numParams = .ok k)
    (hsettings : readSettings e = readSettings e')
    (hnone : (∃ s, readSettings e = .ok s) → (r.outIdx = none ↔ r'.outIdx = none)) :
    r.compileInputs numParams e = r'.compileInputs numParams e' := by
  obtain ⟨o, ho, hk⟩ := compileKey_ok hr
  obtain ⟨o', ho', hk'⟩ := compileKey_ok hr'
  obtain ⟨hfunc, hidx, hconfigs⟩ := keyData_inj hscript (hk.symm.trans hk')
  rw [compileInputs_of_ok ho, compileInputs_of_ok ho', ← hsettings, hfunc, hconfigs]
  cases hs : readSettings e with
  | error f => rfl
  | ok s =>
    have hsame := hnone ⟨s, hs⟩
    rw [← normalizeOutIdx_ok ho, ← normalizeOutIdx_ok ho'] at hsame
    rw [outIdx_eq_of_getD hidx hsame]

/-- Two requests with one key compile to the same exactly when their surroundings are read
alike and, where these can be read, both or none of them name outputs. -/
theorem compileInputs_eq_iff (hscript : Function.Injective script)
    (hr : r.compileKey script numParams = .ok k) (hr' : r'.compileKey script numParams = .ok k) :
    r.compileInputs numParams e = r'.compileInputs numParams e' ↔
      readSettings e = readSettings e' ∧
        ((∃ s, readSettings e = .ok s) → (r.outIdx = none ↔ r'.outIdx = none)) := by
  refine ⟨fun h => ?_, fun ⟨hs, hnone⟩ => compileInputs_eq_of_settings hscript hr hr' hs hnone⟩
  obtain ⟨o, ho, -⟩ := compileKey_ok hr
  obtain ⟨o', ho', -⟩ := compileKey_ok hr'
  rw [compileInputs_of_ok ho, compileInputs_of_ok ho'] at h
  rw [← normalizeOutIdx_ok ho, ← normalizeOutIdx_ok ho']
  cases hs : readSettings e with
  | error f =>
    cases hs' : readSettings e' with
    | error f' =>
      rw [hs, hs'] at h
      exact ⟨congrArg Except.error (Except.error.inj h), fun ⟨_, hok⟩ => by cases hok⟩
    | ok s' =>
      rw [hs, hs'] at h
      cases h
  | ok s =>
    cases hs' : readSettings e' with
    | error f' =>
      rw [hs, hs'] at h
      cases h
    | ok s' =>
      rw [hs, hs'] at h
      obtain ⟨-, ho, -, hss⟩ := CompileInputs.mk.inj (Except.ok.inj h)
      exact ⟨congrArg Except.ok hss, fun _ => by rw [ho]⟩

end

/-- An NPU machine with a 910B. -/
def machine (environ : String → Option String) : Environment :=
  ⟨environ, false, false, true, some "Ascend910B2"⟩

/-- A request for a function that is its own script. -/
def plain : Request String Bool := ⟨"main", none, "cython", "npuir", none, false, none⟩

theorem plain_same_machine :
    plain.compileInputs (fun _ => 2) (machine fun _ => none) =
      plain.compileInputs (fun _ => 2) (machine fun x =>
        if x = "TILELANG_ASCEND_MODE" then some " Expert " else none) := by
  have hkey : plain.compileKey id (fun _ => 2) = .ok (plain.keyData id none) := rfl
  apply (compileInputs_eq_iff Function.injective_id hkey hkey).mpr
  exact ⟨by decide, fun _ => Iff.rfl⟩

/-- One key, and two code generators: the mode is an environment variable. -/
theorem plain_other_mode :
    plain.compileKey id (fun _ => 2) = .ok (plain.keyData id none) ∧
      plain.compileInputs (fun _ => 2) (machine fun _ => none) ≠
        plain.compileInputs (fun _ => 2) (machine fun x =>
          if x = "TILELANG_ASCEND_MODE" then some "dev" else none) := by
  refine ⟨rfl, fun h => ?_⟩
  have hmode : (Except.ok true : Except Failure Bool) = .ok false :=
    congrArg (Except.map fun i : CompileInputs String Bool => i.settings.expertMode) h
  cases hmode

end TileLangNpuir.KernelCache
