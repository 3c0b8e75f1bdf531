import Mathlib.Data.List.Basic
import Mathlib.Data.List.Forall2

/-!
# Layered maps

A stack of scopes over arbitrary keys and values, innermost scope first. A
lookup takes the innermost binding, a write goes to the innermost scope only,
and closing a scope forgets exactly what was written since it was opened. The
lemmas are the ones scoped code generation needs: what a write does to a
lookup, and that writes never reach the scopes below the top one.
-/

namespace TileLangNpuir

universe u v

/-- A stack of scopes, innermost first; a scope lists its bindings, newest
first. -/
abbrev Layers (κ : Type u) (ν : Type v) : Type (max u v) := List (List (κ × ν))

/-- Looking up a list of keys succeeds exactly when each lookup does. -/
theorem mapM_eq_some_iff {α : Type u} {β : Type u} {f : α → Option β} {xs : List α} :
    ∀ {ys : List β}, xs.mapM f = some ys ↔ List.Forall₂ (fun x y => f x = some y) xs ys := by
  induction xs with
  | nil =>
    intro ys
    simp only [List.mapM_nil, List.forall₂_nil_left_iff]
    exact ⟨fun h => (Option.some.inj h).symm, fun h => h ▸ rfl⟩
  | cons x xs ih =>
    intro ys
    simp only [List.mapM_cons, List.forall₂_cons_left_iff, Option.bind_eq_bind,
      Option.bind_eq_some_iff]
    constructor
    · rintro ⟨y, hy, ys', hys', h⟩
      exact ⟨y, ys', hy, ih.mp hys', (Option.some.inj h).symm⟩
    · rintro ⟨y, ys', hy, hys', rfl⟩
      exact ⟨y, hy, ys', ih.mpr hys', rfl⟩

/-- Two lists that are related position by position are related at each position. -/
theorem exists_getElem?_of_forall₂ {α : Type u} {β : Type v} {R : α → β → Prop} {xs : List α}
    {ys : List β} (h : List.Forall₂ R xs ys) {i : ℕ} {x : α} (hx : xs[i]? = some x) :
    ∃ y, ys[i]? = some y ∧ R x y := by
  induction h generalizing i with
  | nil => cases hx
  | @cons a b _ _ hab _ ih =>
    cases i with
    | zero =>
      cases hx
      exact ⟨b, rfl, hab⟩
    | succ i => exact ih hx

/-- A member of the right list has a partner in the left one. -/
theorem exists_of_forall₂_right {α : Type u} {β : Type v} {R : α → β → Prop} {xs : List α}
    {ys : List β} (h : List.Forall₂ R xs ys) {y : β} (hy : y ∈ ys) : ∃ x ∈ xs, R x y := by
  induction h with
  | nil => cases hy
  | @cons a b as bs hab _ ih =>
    rcases List.mem_cons.mp hy with rfl | hy
    · exact ⟨a, List.mem_cons_self, hab⟩
    · obtain ⟨x, hx, hxy⟩ := ih hy
      exact ⟨x, List.mem_cons_of_mem _ hx, hxy⟩

/-- Two lists matched with the same list are matched with each other. -/
theorem forall₂_of_common_right {α : Type u} {β : Type v} {γ : Type*} {R : α → γ → Prop}
    {Q : β → γ → Prop} {xs : List α} {ys : List β} {zs : List γ} (hR : List.Forall₂ R xs zs) :
    List.Forall₂ Q ys zs → List.Forall₂ (fun x y => ∃ z, R x z ∧ Q y z) xs ys := by
  induction hR generalizing ys with
  | nil =>
    intro hQ
    cases hQ
    exact .nil
  | @cons x z xs zs hx _ ih =>
    intro hQ
    cases hQ with
    | cons hy hys => exact .cons ⟨z, hx, hy⟩ (ih hys)

namespace Layers

variable {κ : Type u} {ν : Type v}

/-- Bind a key in the innermost scope; fails when no scope is open. -/
def set : Layers κ ν → κ → ν → Option (Layers κ ν)
  | [], _, _ => none
  | l :: ls, k, x => some (((k, x) :: l) :: ls)

/-- Bind a list of keys, one after the other. -/
def setAll : Layers κ ν → List (κ × ν) → Option (Layers κ ν)
  | s, [] => some s
  | s, p :: ps => (s.set p.1 p.2).bind fun s' => s'.setAll ps

/-- Open a scope. -/
def push (s : Layers κ ν) : Layers κ ν := [] :: s

/-- Close the innermost scope; fails when no scope is open. -/
def pop : Layers κ ν → Option (Layers κ ν)
  | [] => none
  | _ :: ls => some ls

@[simp] theorem tail_push (s : Layers κ ν) : s.push.tail = s := rfl

@[simp] theorem push_ne_nil (s : Layers κ ν) : s.push ≠ [] := by
  simp [push]

theorem pop_eq_some {s s' : Layers κ ν} (h : s.pop = some s') : s.tail = s' := by
  cases s with
  | nil => cases h
  | cons l ls => exact Option.some.inj h

theorem tail_set {s s' : Layers κ ν} {k : κ} {x : ν} (h : s.set k x = some s') :
    s'.tail = s.tail := by
  cases s with
  | nil => cases h
  | cons l ls =>
    obtain rfl := Option.some.inj h
    rfl

theorem length_set {s s' : Layers κ ν} {k : κ} {x : ν} (h : s.set k x = some s') :
    s'.length = s.length := by
  cases s with
  | nil => cases h
  | cons l ls =>
    obtain rfl := Option.some.inj h
    rfl

theorem setAll_cons_eq_some {s s' : Layers κ ν} {p : κ × ν} {ps : List (κ × ν)}
    (h : s.setAll (p :: ps) = some s') :
    ∃ t, s.set p.1 p.2 = some t ∧ t.setAll ps = some s' :=
  Option.bind_eq_some_iff.mp h

theorem tail_setAll {ps : List (κ × ν)} :
    ∀ {s s' : Layers κ ν}, s.setAll ps = some s' → s'.tail = s.tail := by
  induction ps with
  | nil =>
    intro s s' h
    rw [Option.some.inj h]
  | cons p ps ih =>
    intro s s' h
    obtain ⟨t, ht, hs'⟩ := setAll_cons_eq_some h
    rw [ih hs', tail_set ht]

theorem length_setAll {ps : List (κ × ν)} :
    ∀ {s s' : Layers κ ν}, s.setAll ps = some s' → s'.length = s.length := by
  induction ps with
  | nil =>
    intro s s' h
    rw [Option.some.inj h]
  | cons p ps ih =>
    intro s s' h
    obtain ⟨t, ht, hs'⟩ := setAll_cons_eq_some h
    rw [ih hs', length_set ht]

variable [DecidableEq κ]

/-- The innermost binding of a key. -/
def get? : Layers κ ν → κ → Option ν
  | [], _ => none
  | l :: ls, k => (l.lookup k).or (get? ls k)

@[simp] theorem get?_push (s : Layers κ ν) (k : κ) : s.push.get? k = s.get? k := by
  simp [push, get?]

/-- A write is seen by the next lookup and hides nothing else. -/
theorem get?_set {s s' : Layers κ ν} {k : κ} {x : ν} (h : s.set k x = some s') (k' : κ) :
    s'.get? k' = if k' = k then some x else s.get? k' := by
  cases s with
  | nil => cases h
  | cons l ls =>
    obtain rfl := Option.some.inj h
    by_cases hk : k' = k
    · subst hk
      simp [get?]
    · have hk' : (k' == k) = false := by simpa using hk
      simp [get?, List.lookup_cons, hk, hk']

/-- Writes do not touch the keys they do not name. -/
theorem get?_setAll_of_notMem {ps : List (κ × ν)} :
    ∀ {s s' : Layers κ ν} {k : κ}, s.setAll ps = some s' → k ∉ ps.map Prod.fst →
      s'.get? k = s.get? k := by
  induction ps with
  | nil =>
    intro s s' k h _
    rw [Option.some.inj h]
  | cons p ps ih =>
    intro s s' k h hk
    obtain ⟨t, ht, hs'⟩ := setAll_cons_eq_some h
    rw [List.map_cons, List.mem_cons, not_or] at hk
    rw [ih hs' hk.2, get?_set ht, if_neg hk.1]

/-- After writing distinct keys, each of them has the value written to it. -/
theorem get?_setAll_of_mem {ps : List (κ × ν)} :
    ∀ {s s' : Layers κ ν} {k : κ} {x : ν}, s.setAll ps = some s' →
      (ps.map Prod.fst).Nodup → (k, x) ∈ ps → s'.get? k = some x := by
  induction ps with
  | nil =>
    intro s s' k x _ _ hmem
    cases hmem
  | cons p ps ih =>
    intro s s' k x h hnd hmem
    obtain ⟨t, ht, hs'⟩ := setAll_cons_eq_some h
    rw [List.map_cons, List.nodup_cons] at hnd
    rcases List.mem_cons.mp hmem with rfl | hmem
    · rw [get?_setAll_of_notMem hs' hnd.1, get?_set ht, if_pos rfl]
    · exact ih hs' hnd.2 hmem

end Layers

end TileLangNpuir
