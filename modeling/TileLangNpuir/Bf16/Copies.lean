import TileLangNpuir.Bf16.Execute

/-!
# When fp32 copies are current

A rewritten operation reads a bf16 source through a temporary that an earlier cast or an earlier
destination may have left behind. The read is right, whatever the operations compute, exactly
when on the way there the temporary was filled from the buffer, or was written in place of it, and
neither was the buffer written otherwise since then nor the temporary allocated anew
(`legalize_readsRight_iff`).
-/

namespace TileLangNpuir.Bf16

variable {E V W : Type} [DecidableEq E] [Zero E]

namespace Event

/-- The copy has the contents of its buffer afterwards: the operation writes the buffer through it,
or the buffer is cast into it and not written. -/
def Fills (x : Fp32Copy) : Event E → Prop
  | .enter _ => False
  | .visit s => if s.writes = some x.buffer then s.through = some x.temp else x ∈ s.casts

/-- The buffer is written, or the temporary is allocated anew. -/
def Spoils (x : Fp32Copy) : Event E → Prop
  | .enter temps => x.temp ∈ temps.map Temp.id
  | .visit s => s.writes = some x.buffer

end Event

/-- The copy was filled and not spoilt since. -/
def Current (past : List (Event E)) (x : Fp32Copy) : Prop :=
  SetSince (Event.Fills x) (Event.Spoils x) past

namespace Event

/-- What a rewritten operation reads for a bf16 buffer was written and is rounded to the contents
of the buffer. -/
def ReadsRight (M : Machine E V W) (σ : State V W) : Event E → Prop
  | .enter _ => True
  | .visit s => ∀ x ∈ s.reads, (s.atCall M σ).Holds M x

/-- What a rewritten operation reads is cast by the statement itself, or is current. -/
def ReadsCurrent (past : List (Event E)) : Event E → Prop
  | .enter _ => True
  | .visit s => ∀ x ∈ s.reads, x ∈ s.casts ∨ Current past x

end Event

/-- A run of the legalized program. -/
structure Execution (body : Prog (Stmt E)) : Type where
  events : List (Event E)
  path : (legalize body).Path events

namespace Execution

variable {body : Prog (Stmt E)} (x : Execution body)

/-- Every read of the run is right. -/
def ReadsRight (M : Machine E V W) (σ : State V W) : Prop :=
  ∀ past e rest, x.events = past ++ e :: rest → e.ReadsRight M (σ.run M past)

/-- Every read of the run is of a current copy. -/
def ReadsCurrent : Prop :=
  ∀ past e rest, x.events = past ++ e :: rest → e.ReadsCurrent past

end Execution

section

variable {owners : List ℕ} {M : Machine E V W} {σ : State V W} {x : Fp32Copy} {e : Event E}
  {past : List (Event E)}

theorem State.run_concat : σ.run M (past ++ [e]) = (σ.run M past).step M e := by
  rw [State.run, State.run, List.foldl_append]
  rfl

/-! ## Current copies are right -/

/-- A copy that is filled, or was right and is not spoilt, is right. -/
theorem State.holds_step (he : e.Owned owners) (hx : owners[x.temp]? = some x.buffer)
    (h : e.Fills x ∨ σ.Holds M x ∧ ¬e.Spoils x) : (σ.step M e).Holds M x := by
  cases e with
  | enter temps =>
    rcases h with h | ⟨⟨w, hw, hround⟩, hkeep⟩
    · cases h
    · exact ⟨w, by rw [← hw]; exact if_neg hkeep, hround⟩
  | visit s =>
    obtain ⟨hhalf₁, htemp₁⟩ := s.atCall_eq he M σ
    obtain ⟨xs, -, hhalf, htemp⟩ := s.step_eq he M σ
    by_cases hwrites : s.writes = some x.buffer
    · -- the buffer is written, so this is where it is written through the copy
      have hthrough : s.through = some x.temp := by
        rcases h with h | ⟨-, hkeep⟩
        · simpa [Event.Fills, hwrites] using h
        · exact absurd hwrites hkeep
      refine ⟨_, by rw [htemp, if_pos hthrough], ?_⟩
      rw [hhalf, if_pos hwrites]
    · have hthrough := s.through_ne he hx hwrites
      have hkept : (σ.step M (.visit s)).half x.buffer = σ.half x.buffer := by
        rw [hhalf, if_neg hwrites]
      rw [State.Holds, htemp, if_neg hthrough, hkept, htemp₁ x hx]
      by_cases hcast : x ∈ s.casts
      · exact ⟨_, if_pos hcast, M.round_widen _⟩
      · rw [if_neg hcast]
        rcases h with h | ⟨hholds, -⟩
        · simp [Event.Fills, hwrites, hcast] at h
        · exact hholds

theorem Current.holds (howned : ∀ e ∈ past, e.Owned owners) (hx : owners[x.temp]? = some x.buffer)
    (h : Current past x) : (σ.run M past).Holds M x := by
  induction past using List.reverseRecOn with
  | nil => exact absurd h not_setSince_nil
  | append_singleton past e ih =>
    rw [State.run_concat]
    refine State.holds_step (howned e (by simp)) hx ?_
    rcases (setSince_concat e).mp h with hfills | ⟨hcurrent, hkeep⟩
    · exact .inl hfills
    · exact .inr ⟨ih (fun e he => howned e (by simp [he])) hcurrent, hkeep⟩

theorem Event.ReadsCurrent.readsRight (howned : ∀ e ∈ past, e.Owned owners) (he : e.Owned owners)
    (h : e.ReadsCurrent past) : e.ReadsRight M (σ.run M past) := by
  cases e with
  | enter temps => trivial
  | visit s =>
    intro x hx
    have hown := s.reads_owner he hx
    obtain ⟨hhalf, htemp⟩ := s.atCall_eq he M (σ.run M past)
    rw [State.Holds, hhalf, htemp x hown]
    by_cases hcast : x ∈ s.casts
    · exact ⟨_, if_pos hcast, M.round_widen _⟩
    · rw [if_neg hcast]
      exact ((h x hx).resolve_left hcast).holds howned hown

/-! ## Right copies are current

Where every operation computes a number that was not there before, a copy that has the contents
of its buffer has it from the buffer. -/

variable (E) in
/-- Every operation computes a new number. -/
def Machine.numbered : Machine E ℕ ℕ where
  widen := id
  round := id
  round_widen _ := rfl
  unwritten := 0
  scalar _ _ := 0
  compute _ n _ := n + 1

/-- The numbers so far, and what it means that two are equal. -/
structure Numbered (owners : List ℕ) (past : List (Event E)) (σ : State ℕ ℕ) : Prop where
  half : ∀ b, σ.half b ≤ σ.clock
  temp : ∀ x : Fp32Copy, owners[x.temp]? = some x.buffer → ∀ w, σ.temp x.temp = some w → w ≤ σ.clock
  current : ∀ x : Fp32Copy, owners[x.temp]? = some x.buffer →
    σ.temp x.temp = some (σ.half x.buffer) → Current past x

theorem Numbered.step {σ : State ℕ ℕ} (h : Numbered owners past σ) (he : e.Owned owners) :
    Numbered owners (past ++ [e]) (σ.step (.numbered E) e) := by
  cases e with
  | enter temps =>
    refine ⟨h.half, fun x hx w hw => ?_, fun x hx heq => ?_⟩
    · simp only [State.step] at hw
      split at hw
      · cases hw
      · exact h.temp x hx w hw
    · simp only [State.step] at heq
      split at heq
      · cases heq
      · rename_i hkeep
        exact (setSince_concat _).mpr (.inr ⟨h.current x hx heq, hkeep⟩)
  | visit s =>
    obtain ⟨hhalf₁, htemp₁⟩ := s.atCall_eq he (.numbered E) σ
    obtain ⟨xs, hclock, hhalf, htemp⟩ := s.step_eq he (.numbered E) σ
    have hold : ∀ x : Fp32Copy, owners[x.temp]? = some x.buffer →
        ∀ w, (s.atCall (.numbered E) σ).temp x.temp = some w → w ≤ σ.clock := by
      intro x hx w hw
      rw [htemp₁ x hx] at hw
      split at hw
      · obtain rfl := Option.some.inj hw
        exact h.half x.buffer
      · exact h.temp x hx w hw
    refine ⟨fun b => ?_, fun x hx w hw => ?_, fun x hx heq => ?_⟩
    · rw [hhalf, hclock]
      split
      · exact le_rfl
      · exact (h.half b).trans (Nat.le_succ _)
    · rw [htemp] at hw
      rw [hclock]
      split at hw
      · obtain rfl := Option.some.inj hw
        exact le_rfl
      · exact (hold x hx w hw).trans (Nat.le_succ _)
    · rw [htemp, hhalf] at heq
      refine (setSince_concat _).mpr ?_
      by_cases hwrites : s.writes = some x.buffer
      · left
        rw [if_pos hwrites] at heq
        by_cases hthrough : s.through = some x.temp
        · simpa [Event.Fills, hwrites] using hthrough
        · -- an old number is not the new one
          rw [if_neg hthrough] at heq
          exact absurd (hold x hx _ heq) (Nat.not_succ_le_self _)
      · have hthrough := s.through_ne he hx hwrites
        rw [if_neg hwrites, if_neg hthrough, htemp₁ x hx] at heq
        by_cases hcast : x ∈ s.casts
        · left
          simpa [Event.Fills, hwrites] using hcast
        · right
          rw [if_neg hcast] at heq
          exact ⟨h.current x hx heq, hwrites⟩

theorem Numbered.run (howned : ∀ e ∈ past, e.Owned owners) :
    Numbered owners past ((State.start (fun _ => 0) fun _ => 0).run (.numbered E) past) := by
  induction past using List.reverseRecOn with
  | nil => exact ⟨fun _ => le_rfl, fun _ _ _ hw => (nomatch hw), fun _ _ heq => (nomatch heq)⟩
  | append_singleton past e ih =>
    rw [State.run_concat]
    exact (ih fun e he => howned e (by simp [he])).step (howned e (by simp))

theorem Event.ReadsRight.readsCurrent (howned : ∀ e ∈ past, e.Owned owners) (he : e.Owned owners)
    (h : e.ReadsRight (.numbered E) ((State.start (fun _ => 0) fun _ => 0).run (.numbered E) past)) :
    e.ReadsCurrent past := by
  cases e with
  | enter temps => trivial
  | visit s =>
    intro x hx
    have hown := s.reads_owner he hx
    obtain ⟨w, hw, hround⟩ := h x hx
    obtain ⟨hhalf, htemp⟩ := s.atCall_eq he (.numbered E)
      ((State.start (fun _ => 0) fun _ => 0).run (.numbered E) past)
    by_cases hcast : x ∈ s.casts
    · exact .inl hcast
    · right
      rw [htemp x hown, if_neg hcast] at hw
      refine (Numbered.run howned).current x hown ?_
      rw [hw, ← hhalf, ← hround]
      rfl

end

/-- A run of the legalized program reads its fp32 copies right, whatever the operations compute
and the buffers have in them, exactly when it only reads current ones. -/
theorem legalize_readsRight_iff (body : Prog (Stmt E)) (x : Execution body) :
    (∀ (V W : Type) (M : Machine E V W) (half : ℕ → V) (wide : ℕ → W),
      x.ReadsRight M (.start half wide)) ↔ x.ReadsCurrent := by
  obtain ⟨owners, hleaves⟩ := legalize_owned body
  have howned : ∀ e ∈ x.events, e.Owned owners := fun e he => hleaves e (x.path.mem_leaves e he)
  refine ⟨fun h past e rest hsplit => ?_, fun h V W M half wide past e rest hsplit => ?_⟩
  · rw [hsplit] at howned
    exact (h ℕ ℕ (.numbered E) _ _ past e rest hsplit).readsCurrent
      (fun e he => howned e (by simp [he])) (howned e (by simp))
  · rw [hsplit] at howned
    exact (h past e rest hsplit).readsRight (fun e he => howned e (by simp [he]))
      (howned e (by simp))

/-- An addition in place: the destination is prepared before the second source, which is then read
through the temporary that is about to be written. -/
def addInPlace : Prog (Stmt ℕ) :=
  .block (.leaf (.binary .add (.whole ⟨0, .bfloat16, [16], "shared"⟩)
    (.whole ⟨1, .bfloat16, [16], "shared"⟩) (.whole ⟨1, .bfloat16, [16], "shared"⟩)))

def addInPlaceRun : Execution addInPlace :=
  ⟨(legalize addInPlace).leaves, .block (.seq (.leaf _) (.leaf _))⟩

theorem addInPlace_reads_unwritten :
    ¬∀ (body : Prog (Stmt ℕ)) (x : Execution body) (V W : Type) (M : Machine ℕ V W) (half : ℕ → V)
      (wide : ℕ → W), x.ReadsRight M (.start half wide) := by
  intro h
  have hread := h addInPlace addInPlaceRun ℕ ℕ (.numbered ℕ) (fun _ => 0) (fun _ => 0) [_] _ [] rfl
  obtain ⟨w, hw, -⟩ := hread ⟨1, 1⟩ (by decide)
  cases hw

end TileLangNpuir.Bf16
