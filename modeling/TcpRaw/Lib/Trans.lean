/-!
# Transition systems

Labelled steps between states. `Reach init step` are the states of all runs, `Reach.invariant` the
invariant rule; `exec` runs a step function along a list of events, for concrete runs. Steps that
return results run with `outputs`.
-/

namespace Trans

universe u v w x

variable {σ : Type u} {ε : Type v}

/-- The states that runs from an initial state reach. -/
inductive Reach (init : σ → Prop) (step : σ → ε → σ → Prop) : σ → Prop
  | init {s : σ} : init s → Reach init step s
  | step {s t : σ} {e : ε} : Reach init step s → step s e t → Reach init step t

section
variable {init : σ → Prop} {step : σ → ε → σ → Prop}

/-- **The invariant rule.** -/
theorem Reach.invariant {I : σ → Prop} (hinit : ∀ s, init s → I s)
    (hstep : ∀ s e t, I s → step s e t → I t) {s : σ} (h : Reach init step s) : I s := by
  induction h with
  | init h => exact hinit _ h
  | step _ hs ih => exact hstep _ _ _ ih hs

end

/-- Run a step function along a list of events. -/
def exec (f : σ → ε → Option σ) : List ε → σ → Option σ
  | [], s => some s
  | e :: es, s => (f s e).bind (exec f es)

theorem Reach.exec {init : σ → Prop} {step : σ → ε → σ → Prop} {f : σ → ε → Option σ}
    (hf : ∀ s e t, f s e = some t → step s e t) :
    ∀ {es : List ε} {s t : σ}, Reach init step s → Trans.exec f es s = some t → Reach init step t
  | [], _, _, h, he => by
    cases he
    exact h
  | _ :: _, _, _, h, he => by
    obtain ⟨s', hs', he⟩ := Option.bind_eq_some_iff.1 he
    exact Reach.exec hf (.step h (hf _ _ _ hs')) he

theorem exec_append (f : σ → ε → Option σ) : ∀ (es es' : List ε) (s : σ),
    exec f (es ++ es') s = (exec f es s).bind (exec f es')
  | [], _, _ => rfl
  | e :: es, es', s => by
    change (f s e).bind (exec f (es ++ es')) = ((f s e).bind (exec f es)).bind (exec f es')
    rw [Option.bind_assoc]
    congr 1
    funext s'
    exact exec_append f es es' s'

/-- **The invariant rule of a run.** -/
theorem exec_invariant {f : σ → ε → Option σ} {I : σ → Prop}
    (hI : ∀ s e t, I s → f s e = some t → I t) :
    ∀ {es : List ε} {s t : σ}, I s → exec f es s = some t → I t
  | [], _, _, hs, he => by
    cases he
    exact hs
  | _ :: _, _, _, hs, he => by
    obtain ⟨s', hs', he⟩ := Option.bind_eq_some_iff.1 he
    exact exec_invariant hI (hI _ _ _ hs hs') he

/-- **Runs that end where `P` fails**: if under an invariant `I` a step keeps `P` exactly where `C`
holds, and no step follows once `P` is lost, then a run has kept `P` exactly if each of its events
met `C` in the state before it. -/
theorem exec_iff_steps {f : σ → ε → Option σ} {I P : σ → Prop} {C : σ → ε → Prop}
    (hI : ∀ s e t, I s → f s e = some t → I t)
    (hend : ∀ s e t, f s e = some t → P s)
    (hP : ∀ s e t, I s → f s e = some t → (P t ↔ C s e)) :
    ∀ {es : List ε} {s t : σ}, I s → P s → exec f es s = some t →
      (P t ↔ ∀ pre e post u, es = pre ++ e :: post → exec f pre s = some u → C u e)
  | [], s, t, _, h, he => by
    cases he
    refine iff_of_true h fun pre e post u hes _ => ?_
    simp at hes
  | e :: es, s, t, hs, _, he => by
    obtain ⟨s', hs', he⟩ := Option.bind_eq_some_iff.1 he
    have hnext := hP s e s' hs hs'
    constructor
    · intro ht
      -- what follows the first step needs `P` after it; an empty rest has it at the end
      have hs'P : P s' := by
        cases es with
        | nil =>
          cases he
          exact ht
        | cons e' es =>
          obtain ⟨s'', hs'', -⟩ := Option.bind_eq_some_iff.1 he
          exact hend _ _ _ hs''
      have hrest := (exec_iff_steps hI hend hP (hI _ _ _ hs hs') hs'P he).1 ht
      intro pre x post u hes hu
      cases pre with
      | nil =>
        obtain ⟨rfl, rfl⟩ := List.cons.inj hes
        cases hu
        exact hnext.1 hs'P
      | cons y pre =>
        obtain ⟨rfl, rfl⟩ := List.cons.inj hes
        rw [exec, hs'] at hu
        exact hrest pre x post u rfl hu
    · intro hC
      have hs'P : P s' := hnext.2 (hC [] e es s rfl rfl)
      refine (exec_iff_steps hI hend hP (hI _ _ _ hs hs') hs'P he).2 fun pre x post u hes hu => ?_
      refine hC (e :: pre) x post u (by rw [hes]; rfl) ?_
      rw [exec, hs']
      exact hu

/-- **A run takes few steps of one kind**: if each of them lowers `μ`, and no other step raises it,
there are no more of them than `μ` says. -/
theorem exec_countP_le {f : σ → ε → Option σ} {I : σ → Prop} (mine : ε → Bool) (μ : σ → Nat)
    (hI : ∀ s e t, I s → f s e = some t → I t)
    (hμ : ∀ s e t, I s → f s e = some t → μ t + (if mine e then 1 else 0) ≤ μ s) :
    ∀ {es : List ε} {s t : σ}, I s → exec f es s = some t → es.countP mine + μ t ≤ μ s
  | [], _, _, _, he => by
    cases he
    simp only [List.countP_nil, Nat.zero_add, Nat.le_refl]
  | e :: es, s, t, hs, he => by
    obtain ⟨s', hs', he⟩ := Option.bind_eq_some_iff.1 he
    have hfirst := hμ s e s' hs hs'
    have hrest := exec_countP_le mine μ hI hμ (hI _ _ _ hs hs') he
    rw [List.countP_cons]
    omega

/-- **The variant rule**: if under an invariant, as long as `μ` is positive, some step of one kind
lowers it, then steps of that kind bring it down to zero. -/
theorem exec_variant {f : σ → ε → Option σ} {I : σ → Prop} (mine : ε → Bool) (μ : σ → Nat)
    (hμ : ∀ s, I s → 0 < μ s → ∃ e t, mine e = true ∧ f s e = some t ∧ I t ∧ μ t < μ s) {s : σ}
    (hs : I s) : ∃ es t, (∀ e ∈ es, mine e = true) ∧ exec f es s = some t ∧ I t ∧ μ t = 0 := by
  generalize hn : μ s = n
  induction n using Nat.strongRecOn generalizing s with
  | ind n ih =>
    rcases Nat.eq_zero_or_pos (μ s) with hzero | hpos
    · exact ⟨[], s, nofun, rfl, hs, hzero⟩
    · obtain ⟨e, s', he, hs', hI, hlt⟩ := hμ s hs hpos
      obtain ⟨es, t, hes, ht, hend⟩ := ih (μ s') (hn ▸ hlt) hI rfl
      refine ⟨e :: es, t, List.forall_mem_cons.2 ⟨he, hes⟩, ?_, hend⟩
      rw [exec, hs']
      exact ht

/-- **Simulation of runs that may stop**: if under an invariant each step of `f` is, seen through
`α`, the step of `g`, then so is a run of `f` on events that have `P`. -/
theorem exec_simulates {τ : Type w} {f : σ → ε → Option σ} {g : τ → ε → Option τ} {I : σ → Prop}
    {P : ε → Prop} {α : σ → τ} (hI : ∀ s e t, I s → P e → f s e = some t → I t)
    (hα : ∀ s e, I s → P e → (f s e).map α = g (α s) e) :
    ∀ {es : List ε} {s : σ}, I s → (∀ e ∈ es, P e) → (exec f es s).map α = exec g es (α s)
  | [], _, _, _ => rfl
  | e :: es, s, hs, hes => by
    have he := hα s e hs (hes e List.mem_cons_self)
    rw [exec, exec, ← he]
    cases hf : f s e with
    | none => rfl
    | some s' =>
      exact exec_simulates hI hα (hI s e s' hs (hes e List.mem_cons_self) hf)
        fun e' he' => hes e' (List.mem_cons_of_mem _ he')

/-! ## Runs of a total step -/

/-- Every state of a run has the property `P`. -/
def Always (f : σ → ε → σ) (P : σ → Prop) (s : σ) (es : List ε) : Prop :=
  ∀ pre post, es = pre ++ post → P (pre.foldl f s)

/-- **Simulation**: if under an invariant each step of `f` is, seen through `α`, a step of `g`, then
a run of `f` is a run of `g`. -/
theorem foldl_simulates {τ : Type v} {f : σ → ε → σ} {g : τ → ε → τ} {I : σ → Prop} {α : σ → τ}
    (hI : ∀ s e, I s → I (f s e)) (hα : ∀ s e, I s → α (f s e) = g (α s) e) :
    ∀ (es : List ε) (s : σ), I s → I (es.foldl f s) ∧ α (es.foldl f s) = es.foldl g (α s)
  | [], _, hs => ⟨hs, rfl⟩
  | e :: es, s, hs => by
    rw [List.foldl_cons, List.foldl_cons, ← hα s e hs]
    exact foldl_simulates hI hα es (f s e) (hI s e hs)

/-- Every event of a run meets `C` in the state before it. -/
def Steps (f : σ → ε → σ) (C : σ → ε → Prop) (s : σ) (es : List ε) : Prop :=
  ∀ pre e post, es = pre ++ e :: post → C (pre.foldl f s) e

theorem always_cons {f : σ → ε → σ} {P : σ → Prop} {s : σ} {e : ε} {es : List ε} :
    Always f P s (e :: es) ↔ P s ∧ Always f P (f s e) es := by
  constructor
  · refine fun h => ⟨h [] _ rfl, fun pre post he => ?_⟩
    exact h (e :: pre) post (by rw [he]; rfl)
  · rintro ⟨hs, h⟩ pre post he
    cases pre with
    | nil => exact hs
    | cons e' pre =>
      obtain ⟨rfl, rfl⟩ := List.cons.inj he
      exact h pre post rfl

theorem steps_cons {f : σ → ε → σ} {C : σ → ε → Prop} {s : σ} {e : ε} {es : List ε} :
    Steps f C s (e :: es) ↔ C s e ∧ Steps f C (f s e) es := by
  constructor
  · refine fun h => ⟨h [] e es rfl, fun pre e' post he => ?_⟩
    exact h (e :: pre) e' post (by rw [he]; rfl)
  · rintro ⟨hs, h⟩ pre e' post he
    cases pre with
    | nil =>
      obtain ⟨rfl, -⟩ := List.cons.inj he
      exact hs
    | cons x pre =>
      obtain ⟨rfl, rfl⟩ := List.cons.inj he
      exact h pre e' post rfl

/-- **The exact condition of a run**: if under an invariant `I` a step keeps `P` exactly where `C`
holds, then `P` holds throughout a run exactly if `C` holds at each of its steps. -/
theorem always_iff_steps {f : σ → ε → σ} {I P : σ → Prop} {C : σ → ε → Prop}
    (hI : ∀ s e, I s → I (f s e)) (hP : ∀ s e, I s → P s → (P (f s e) ↔ C s e)) :
    ∀ (es : List ε) (s : σ), I s → P s → (Always f P s es ↔ Steps f C s es)
  | [], s, _, h => by
    refine iff_of_true (fun pre post he => ?_) fun pre e post he => ?_
    · obtain ⟨rfl, -⟩ := List.append_eq_nil_iff.1 he.symm
      exact h
    · simp at he
  | e :: es, s, hs, h => by
    rw [always_cons, steps_cons, ← hP s e hs h]
    constructor
    · rintro ⟨-, hrun⟩
      have hnext : P (f s e) := hrun [] es rfl
      exact ⟨hnext, (always_iff_steps hI hP es _ (hI s e hs) hnext).1 hrun⟩
    · rintro ⟨hnext, hrun⟩
      exact ⟨h, (always_iff_steps hI hP es _ (hI s e hs) hnext).2 hrun⟩

/-! ## Steps with results -/

/-- The results of a run, and the state after it. -/
def outputs {ρ : Type w} (f : σ → ε → ρ × σ) : List ε → σ → List ρ × σ
  | [], s => ([], s)
  | e :: es, s => ((f s e).1 :: (outputs f es (f s e).2).1, (outputs f es (f s e).2).2)

/-- **Simulation with results**: if related states give the same result and related states, so do
runs from them. -/
theorem outputs_simulates {ρ : Type w} {τ : Type x} {f : σ → ε → ρ × σ} {g : τ → ε → ρ × τ}
    {R : σ → τ → Prop}
    (h : ∀ s t e, R s t → (f s e).1 = (g t e).1 ∧ R (f s e).2 (g t e).2) :
    ∀ (es : List ε) {s : σ} {t : τ}, R s t →
      (outputs f es s).1 = (outputs g es t).1 ∧ R (outputs f es s).2 (outputs g es t).2
  | [], _, _, hst => ⟨rfl, hst⟩
  | e :: es, s, t, hst => by
    obtain ⟨hres, hnext⟩ := h s t e hst
    obtain ⟨hrest, hend⟩ := outputs_simulates h es hnext
    refine ⟨?_, hend⟩
    rw [outputs, outputs, hres, hrest]

end Trans
