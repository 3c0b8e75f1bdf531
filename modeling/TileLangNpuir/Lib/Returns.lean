import Mathlib.Data.List.Forall2

/-!
# What a computation returns

Partial correctness of computations with a state that may fail: `Returns m P` says that `P` holds
of what `m` returns, whatever state it starts in, if it returns.
-/

namespace TileLangNpuir

variable {σ ε α β : Type} {P Q : α → Prop} {R : β → Prop}

/-- Everything that `m` returns meets `P`. -/
def Returns (m : StateT σ (Except ε) α) (P : α → Prop) : Prop :=
  ∀ s a s', m s = .ok (a, s') → P a

theorem returns_pure {a : α} (h : P a) : Returns (pure a : StateT σ (Except ε) α) P := by
  intro s b s' hb
  cases hb
  exact h

theorem returns_throw (e : ε) : Returns (throw e : StateT σ (Except ε) α) P :=
  fun _ _ _ hb => (nomatch hb)

/-- A computation without state. -/
theorem returns_lift {e : Except ε α} (h : ∀ a, e = .ok a → P a) :
    Returns (StateT.lift e : StateT σ (Except ε) α) P := by
  intro s b s' hb
  cases e with
  | error e => cases hb
  | ok a =>
    cases hb
    exact h b rfl

theorem Returns.bind {m : StateT σ (Except ε) α} {f : α → StateT σ (Except ε) β}
    (hm : Returns m P) (hf : ∀ a, P a → Returns (f a) R) : Returns (m >>= f) R := by
  intro s b s' hb
  cases hres : m s with
  | error e =>
    have hb : (m s >>= fun p => f p.1 p.2) = .ok (b, s') := hb
    rw [hres] at hb
    cases hb
  | ok p =>
    have hb : (m s >>= fun p => f p.1 p.2) = .ok (b, s') := hb
    rw [hres] at hb
    exact hf p.1 (hm s p.1 p.2 hres) p.2 b s' hb

theorem Returns.mono {m : StateT σ (Except ε) α} (h : Returns m P) (hPQ : ∀ a, P a → Q a) :
    Returns m Q := fun s a s' ha => hPQ a (h s a s' ha)

theorem returns_true (m : StateT σ (Except ε) α) : Returns m fun _ => True :=
  fun _ _ _ _ => trivial

theorem Returns.ite {c : Prop} [Decidable c] {m n : StateT σ (Except ε) α}
    (hm : c → Returns m P) (hn : ¬c → Returns n P) : Returns (if c then m else n) P := by
  split
  · exact hm ‹_›
  · exact hn ‹_›

/-- A computation for each element. -/
theorem returns_mapM {S : α → β → Prop} {f : α → StateT σ (Except ε) β} {l : List α}
    (hf : ∀ a ∈ l, Returns (f a) (S a)) : Returns (l.mapM f) (List.Forall₂ S l) := by
  induction l with
  | nil => exact returns_pure .nil
  | cons a l ih =>
    rw [List.mapM_cons]
    refine (hf a List.mem_cons_self).bind fun b hb => ?_
    refine (ih fun x hx => hf x (List.mem_cons_of_mem a hx)).bind fun bs hbs => ?_
    exact returns_pure (.cons hb hbs)

/-! ## Computations without state -/

section

variable {f : α → Except ε β} {g : α → β} {l : List α}

theorem mapM_eq_ok (h : ∀ a ∈ l, f a = .ok (g a)) : l.mapM f = .ok (l.map g) := by
  induction l with
  | nil => rfl
  | cons a l ih =>
    rw [List.forall_mem_cons] at h
    rw [List.mapM_cons, h.1, ih h.2]
    rfl

theorem exists_of_mapM_eq_ok {k : List β} (h : l.mapM f = .ok k) : ∀ a ∈ l, ∃ b, f a = .ok b := by
  induction l generalizing k with
  | nil => nofun
  | cons a l ih =>
    rw [List.mapM_cons] at h
    cases ha : f a with
    | error e =>
      rw [ha] at h
      cases h
    | ok b =>
      cases hl : l.mapM f with
      | error e =>
        rw [ha, hl] at h
        cases h
      | ok bs => exact List.forall_mem_cons.mpr ⟨⟨b, ha⟩, ih hl⟩

/-- A loop that keeps an invariant, which may speak about the elements that were passed. -/
theorem exists_foldlM {h : β → α → Except ε β} {P : List α → β → Prop} {b : β} (hstart : P [] b)
    (hstep : ∀ done a rest b, l = done ++ a :: rest → P done b →
      ∃ b', h b a = .ok b' ∧ P (done ++ [a]) b') :
    ∃ b', l.foldlM h b = .ok b' ∧ P l b' := by
  have hloop : ∀ rest done b, l = done ++ rest → P done b →
      ∃ b', rest.foldlM h b = .ok b' ∧ P l b' := by
    intro rest
    induction rest with
    | nil =>
      intro done b hl hb
      rw [List.append_nil] at hl
      exact ⟨b, rfl, hl ▸ hb⟩
    | cons a rest ih =>
      intro done b hl hb
      obtain ⟨b', ha, hb'⟩ := hstep done a rest b hl hb
      obtain ⟨b'', hrest, hb''⟩ := ih (done ++ [a]) b' (by rw [hl, List.append_cons]) hb'
      refine ⟨b'', ?_, hb''⟩
      rw [List.foldlM_cons, ha]
      exact hrest
  exact hloop l [] b rfl hstart

end

end TileLangNpuir
