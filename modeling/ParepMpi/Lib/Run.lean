import Mathlib.Data.List.Basic

/-!
# Runs of a system of events

A system takes one event at a time, and an event that cannot happen ends a run. A guard is a condition on the state
before an event. What holds at the start and is kept by every guarded event holds after every guarded run; guards and
the existence of a run with a given end can be decided, so that fixed runs are checked by computing them.
-/

variable {σ ε : Type*}

/-- The state after the events of the list, when each of them can happen. -/
def runEvents (step : σ → ε → Option σ) : σ → List ε → Option σ
  | s, [] => some s
  | s, e :: es => (step s e).bind fun s' => runEvents step s' es

/-- Whether a run goes through and ends in a state of the kind asked for can be computed. -/
instance decidableExistsRun {o : Option σ} {P : σ → Prop} [DecidablePred P] : Decidable (∃ s, o = some s ∧ P s) :=
  inferInstanceAs (Decidable (∃ s ∈ o, P s))

/-- What is computed about the last state of a run, and what follows from it. -/
theorem exists_run_imp {o : Option σ} {P Q : σ → Prop} (h : ∃ s, o = some s ∧ P s)
    (himp : ∀ s, o = some s → P s → Q s) : ∃ s, o = some s ∧ Q s :=
  h.imp fun s hs => ⟨hs.1, himp s hs.1 hs.2⟩

/-- Every event of the run meets the guard in the state in which it happens. -/
def Guarded (step : σ → ε → Option σ) (guard : σ → ε → Prop) : σ → List ε → Prop
  | _, [] => True
  | s, e :: es => guard s e ∧ match step s e with
    | none => True
    | some s' => Guarded step guard s' es

section

variable {step : σ → ε → Option σ} {guard : σ → ε → Prop}

variable {e : ε} {es : List ε}

theorem runEvents_cons {s s'' : σ} :
    runEvents step s (e :: es) = some s'' ↔ ∃ s', step s e = some s' ∧ runEvents step s' es = some s'' := by
  rw [runEvents, Option.bind_eq_some_iff]

theorem guarded_cons {s s' : σ} (h : Guarded step guard s (e :: es))
    (hs : step s e = some s') : guard s e ∧ Guarded step guard s' es := by
  rw [Guarded, hs] at h
  exact h

theorem runEvents_snoc {s s'' : σ} :
    runEvents step s (es ++ [e]) = some s'' ↔ ∃ s', runEvents step s es = some s' ∧ step s' e = some s'' := by
  induction es generalizing s with
  | nil => simp [runEvents]
  | cons e' es ih =>
    rw [List.cons_append]
    simp only [ih, runEvents_cons]
    constructor
    · intro h
      obtain ⟨s₁, h₁, s', h', hlast⟩ := h
      exact ⟨s', ⟨s₁, h₁, h'⟩, hlast⟩
    · intro h
      obtain ⟨s', ⟨s₁, h₁, h'⟩, hlast⟩ := h
      exact ⟨s₁, h₁, s', h', hlast⟩

theorem guarded_snoc {s s' : σ} (hrun : runEvents step s es = some s') :
    Guarded step guard s (es ++ [e]) ↔ Guarded step guard s es ∧ guard s' e := by
  induction es generalizing s with
  | nil =>
    obtain rfl := Option.some_inj.mp hrun
    constructor
    · exact fun h => ⟨trivial, h.1⟩
    · intro h
      refine ⟨h.2, ?_⟩
      split
      all_goals trivial
  | cons e' es ih =>
    obtain ⟨t, ht, hrest⟩ := runEvents_cons.mp hrun
    simp only [List.cons_append, Guarded, ht, ih hrest, and_assoc]

theorem guarded_of_forall {s : σ} (h : ∀ e ∈ es, ∀ s, guard s e) : Guarded step guard s es := by
  induction es generalizing s with
  | nil => trivial
  | cons e es ih =>
    refine ⟨h e List.mem_cons_self s, ?_⟩
    split
    · trivial
    · exact ih fun e he => h e (List.mem_cons_of_mem _ he)

theorem Guarded.and {guard' : σ → ε → Prop} {s : σ} (h : Guarded step guard s es)
    (h' : Guarded step guard' s es) : Guarded step (fun s e => guard s e ∧ guard' s e) s es := by
  induction es generalizing s with
  | nil => trivial
  | cons e es ih =>
    refine ⟨⟨h.1, h'.1⟩, ?_⟩
    split
    · trivial
    · rename_i s' hs
      exact ih (guarded_cons h hs).2 (guarded_cons h' hs).2

/-- An assertion about the events so far and the state they lead to, kept by every guarded event, holds
after every guarded run. -/
theorem guarded_run_invariant {P : List ε → σ → Prop}
    (hstep : ∀ past s e s', P past s → guard s e → step s e = some s' → P (past ++ [e]) s')
    (es past : List ε) {s s' : σ} (hinit : P past s) (hguard : Guarded step guard s es)
    (hrun : runEvents step s es = some s') : P (past ++ es) s' := by
  induction es generalizing past s with
  | nil =>
    rw [runEvents, Option.some_inj] at hrun
    rwa [List.append_nil, ← hrun]
  | cons e es ih =>
    obtain ⟨t, ht, hrest⟩ := runEvents_cons.mp hrun
    obtain ⟨hge, hgrest⟩ := guarded_cons hguard ht
    have hlast := ih (past ++ [e]) (hstep past s e t hinit hge ht) hgrest hrest
    rwa [List.append_assoc] at hlast

theorem Guarded.invariant {P : σ → Prop} {s s' : σ} (hguard : Guarded step guard s es)
    (hrun : runEvents step s es = some s') (hinit : P s)
    (hstep : ∀ {s e s'}, P s → guard s e → step s e = some s' → P s') : P s' :=
  guarded_run_invariant (P := fun _ => P) (fun _ _ _ _ => hstep) es [] hinit hguard hrun

end

/-- When every state that is not final has an event that keeps the invariant and brings the measure down, every
state with the invariant has a run to a final one. -/
theorem exists_run_of_decreasing {step : σ → ε → Option σ} {Inv Final : σ → Prop} (μ : σ → Nat)
    (h : ∀ s, Inv s → ¬ Final s → ∃ e s', step s e = some s' ∧ Inv s' ∧ μ s' < μ s) (s : σ) (hs : Inv s) :
    ∃ es s', runEvents step s es = some s' ∧ Inv s' ∧ Final s' := by
  by_cases hfinal : Final s
  · exact ⟨[], s, rfl, hs, hfinal⟩
  · obtain ⟨e, t, ht, hinv, hlt⟩ := h s hs hfinal
    obtain ⟨es, s', hrun, hs'⟩ := exists_run_of_decreasing μ h t hinv
    exact ⟨e :: es, s', runEvents_cons.mpr ⟨t, ht, hrun⟩, hs'⟩
termination_by μ s

instance Guarded.decidable (step : σ → ε → Option σ) (guard : σ → ε → Prop)
    [∀ s e, Decidable (guard s e)] : ∀ s es, Decidable (Guarded step guard s es)
  | _, [] => instDecidableTrue
  | s, e :: es =>
    have : Decidable (match step s e with
        | none => True
        | some s' => Guarded step guard s' es) :=
      match step s e with
      | none => instDecidableTrue
      | some s' => Guarded.decidable step guard s' es
    inferInstanceAs (Decidable (guard s e ∧ _))
