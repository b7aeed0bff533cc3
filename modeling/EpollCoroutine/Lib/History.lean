import EpollCoroutine.Lib.Lts

/-!
# Runs with logs, and parts that follow a machine

An observer writes down what happens in each part `k` of a system while it runs; the system does
not read these logs.

* `withLog step note`: the system together with its logs. Every run of the system has logs
  (`Reach.exists_log`).
* `observed step obs`: the system together with an observer that may get stuck. One that is related
  to the system in every state does not (`Reach.exists_observed`), stays related
  (`Reach.observed_related`) and can follow the next step (`Reach.observed_possible`).
* `trace`: where a machine is after a list of events, with the invariant rule `trace_inv` and the
  potential rule `trace_potential`.
* `PartStep`: a part stays as it is or ends, makes one logged move of the machine `next`, or begins.
* `Follows.step`, `Reach.follows`: if every step of the system is of this kind for every part, then
  the log of each part is a trace of the machine, and leads to where the part is.
-/

namespace Lts

variable {σ ℓ κ ε α : Type*}

/-- A run under a guard is a run under a weaker one. -/
theorem Reach.mono {step : σ → ℓ → Option σ} {ok ok' : σ → ℓ → Prop} {s₀ s : σ}
    (h : Reach step ok s₀ s) (himp : ∀ s l, ok s l → ok' s l) : Reach step ok' s₀ s := by
  induction h with
  | refl => exact .refl
  | tail _ hok hst ih => exact ih.tail (himp _ _ hok) hst

/-! ### Logs -/

/-- The system together with the logs that `note` writes. -/
def withLog (step : σ → ℓ → Option σ) (note : σ → ℓ → (κ → List ε) → κ → List ε)
    (x : σ × (κ → List ε)) (l : ℓ) : Option (σ × (κ → List ε)) :=
  (step x.1 l).map fun s' => (s', note x.1 l x.2)

section Log

variable {step : σ → ℓ → Option σ} {note : σ → ℓ → (κ → List ε) → κ → List ε}
  {ok : σ → ℓ → Prop} {s₀ s : σ} {g₀ g : κ → List ε}

theorem withLog_cases {x x' : σ × (κ → List ε)} {l : ℓ} (h : withLog step note x l = some x') :
    step x.1 l = some x'.1 ∧ x'.2 = note x.1 l x.2 := by
  obtain ⟨s', hs', rfl⟩ := Option.map_eq_some_iff.1 h
  exact ⟨hs', rfl⟩

/-- Every run has logs. -/
theorem Reach.exists_log (note : σ → ℓ → (κ → List ε) → κ → List ε) (g₀ : κ → List ε)
    (h : Reach step ok s₀ s) :
    ∃ g, Reach (withLog step note) (fun y l => ok y.1 l) (s₀, g₀) (s, g) := by
  induction h with
  | refl => exact ⟨g₀, .refl⟩
  | @tail s s' l _ hok hst ih =>
    obtain ⟨g, hg⟩ := ih
    refine ⟨note s l g, hg.tail (l := l) hok ?_⟩
    simp [withLog, hst]

end Log

/-! ### Observers -/

/-- The system together with an observer, which sees each step and may refuse it. -/
def observed {τ : Type*} (step : σ → ℓ → Option σ) (obs : σ → ℓ → σ → τ → Option τ) (x : σ × τ)
    (l : ℓ) : Option (σ × τ) :=
  (step x.1 l).bind fun s' => (obs x.1 l s' x.2).map fun t' => (s', t')

section Observer

variable {τ : Type*} {step : σ → ℓ → Option σ} {obs : σ → ℓ → σ → τ → Option τ} {ok : σ → ℓ → Prop}
  {R : σ → τ → Prop} {s₀ s : σ} {t₀ : τ}

theorem observed_cases {x x' : σ × τ} {l : ℓ} (h : observed step obs x l = some x') :
    step x.1 l = some x'.1 ∧ obs x.1 l x'.1 x.2 = some x'.2 := by
  obtain ⟨s', hs', h⟩ := Option.bind_eq_some_iff.1 h
  obtain ⟨t', ht', rfl⟩ := Option.map_eq_some_iff.1 h
  exact ⟨hs', ht'⟩

theorem Reach.of_observed {x : σ × τ}
    (h : Reach (observed step obs) (fun x l => ok x.1 l) (s₀, t₀) x) : Reach step ok s₀ x.1 := by
  induction h with
  | refl => exact .refl
  | tail _ hok hst ih => exact ih.tail hok (observed_cases hst).1

/-- An observer that is related to the system does not get stuck. -/
theorem Reach.exists_observed (h : Reach step ok s₀ s) (h0 : R s₀ t₀)
    (hs : ∀ s l s' t, Reach step ok s₀ s → R s t → step s l = some s' →
      ∃ t', obs s l s' t = some t' ∧ R s' t') :
    ∃ t, Reach (observed step obs) (fun x l => ok x.1 l) (s₀, t₀) (s, t) ∧ R s t := by
  induction h with
  | refl => exact ⟨t₀, .refl, h0⟩
  | @tail s s' l hr hok hst ih =>
    obtain ⟨t, ht, hR⟩ := ih
    obtain ⟨t', ht', hR'⟩ := hs s l s' t hr hR hst
    exact ⟨t', ht.tail (l := l) hok (by simp [observed, hst, ht']), hR'⟩

/-- It stays related. -/
theorem Reach.observed_related {x : σ × τ}
    (h : Reach (observed step obs) (fun x l => ok x.1 l) (s₀, t₀) x) (h0 : R s₀ t₀)
    (hs : ∀ s l s' t, Reach step ok s₀ s → R s t → step s l = some s' →
      ∃ t', obs s l s' t = some t' ∧ R s' t') : R x.1 x.2 := by
  induction h with
  | refl => exact h0
  | tail hr _ hst ih =>
    obtain ⟨hstep, hobs⟩ := observed_cases hst
    obtain ⟨t', ht', hR⟩ := hs _ _ _ _ hr.of_observed ih hstep
    rw [hobs] at ht'
    cases ht'
    exact hR

/-- It can follow whatever the system does next. -/
theorem Reach.observed_possible {x : σ × τ}
    (h : Reach (observed step obs) (fun x l => ok x.1 l) (s₀, t₀) x) (h0 : R s₀ t₀)
    (hs : ∀ s l s' t, Reach step ok s₀ s → R s t → step s l = some s' →
      ∃ t', obs s l s' t = some t' ∧ R s' t') {l : ℓ} {s' : σ} (hst : step x.1 l = some s') :
    ∃ t', observed step obs x l = some (s', t') := by
  obtain ⟨t', ht', -⟩ := hs _ _ _ _ h.of_observed (h.observed_related h0 hs) hst
  exact ⟨t', by simp [observed, hst, ht']⟩

end Observer

/-! ### Parts that follow a machine -/

section Follows

variable (next : α → ε → Option α) (init : α)

/-- Where the machine is after the events `es`, if it allows them. -/
def trace (es : List ε) : Option α := es.foldlM next init

@[simp] theorem trace_nil : trace next init [] = some init := rfl

theorem trace_snoc (es : List ε) (e : ε) :
    trace next init (es ++ [e]) = (trace next init es).bind (next · e) := by
  simp [trace, List.foldlM_append]

/-- The invariant rule for traces. -/
theorem trace_inv {I : List ε → α → Prop} (h0 : I [] init)
    (hs : ∀ es a e a', trace next init es = some a → I es a → next a e = some a' →
      I (es ++ [e]) a') {es : List ε} {a : α} (h : trace next init es = some a) : I es a := by
  induction es using List.reverseRecOn generalizing a with
  | nil => exact Option.some.inj h ▸ h0
  | append_singleton es e ih =>
    rw [trace_snoc] at h
    obtain ⟨b, hb, hn⟩ := Option.bind_eq_some_iff.1 h
    exact hs es b e a hb (ih hb) hn

/-- The potential rule: the events `p` take one from the potential, and the events `q` add `k` to
it. -/
theorem trace_potential {φ : α → ℕ} {p q : ε → Bool} {k : ℕ} {es : List ε}
    (hs : ∀ a, ∀ e ∈ es, ∀ a', next a e = some a' →
      φ a' + (if p e then 1 else 0) ≤ φ a + if q e then k else 0) {a : α}
    (h : trace next init es = some a) : φ a + es.countP p ≤ φ init + k * es.countP q := by
  induction es using List.reverseRecOn generalizing a with
  | nil =>
    obtain rfl := Option.some.inj h
    exact le_rfl
  | append_singleton es e ih =>
    rw [trace_snoc] at h
    obtain ⟨b, hb, hn⟩ := Option.bind_eq_some_iff.1 h
    have hbefore := ih (fun a e' he' => hs a e' (List.mem_append_left _ he')) hb
    have hstep := hs b e (by simp) a hn
    simp only [List.countP_append, List.countP_singleton, Nat.mul_add, mul_ite, mul_one,
      mul_zero]
    omega

/-- What a step does to a part and its log `g`: `v` tells where the part is before the step, `v'`
after it, and holds nowhere if the part is not there. -/
inductive PartStep (v v' : α → Prop) (g : List ε) : List ε → Prop
  | stays (h : ∀ b, v' b → v b) : PartStep v v' g g
  | moves {a a' : α} {e : ε} (h : v a) (hn : next a e = some a') (h' : ∀ b, v' b → b = a') :
      PartStep v v' g (g ++ [e])
  | begins (hg : g = []) (h' : ∀ b, v' b → b = init) : PartStep v v' g g

/-- The log `g` is a trace of the machine, and leads to where the part is. -/
def Follows (v : α → Prop) (g : List ε) : Prop :=
  ∃ a, trace next init g = some a ∧ ∀ b, v b → b = a

variable {next} {init} {v v' : α → Prop} {g g' : List ε}

theorem Follows.trace_eq (h : Follows next init v g) {a : α} (hv : v a) :
    trace next init g = some a := by
  obtain ⟨b, hb, hv'⟩ := h
  rw [hb, hv' a hv]

theorem Follows.step (h : Follows next init v g) (hs : PartStep next init v v' g g') :
    Follows next init v' g' := by
  obtain ⟨a, ha, hv⟩ := h
  cases hs with
  | stays hv' => exact ⟨a, ha, fun b hb => hv b (hv' b hb)⟩
  | @moves b b' e hb hn hb' =>
    obtain rfl := hv b hb
    refine ⟨b', ?_, hb'⟩
    rw [trace_snoc, ha, Option.bind_some, hn]
  | begins hg hv' =>
    subst hg
    exact ⟨init, rfl, hv'⟩

/-- The rule for a whole system: the parts that it has, seen through `V`, follow the machine if
each of them does so in every step. `J` is an invariant of the runs with logs. -/
theorem Reach.follows {step : σ → ℓ → Option σ} {note : σ → ℓ → (κ → List ε) → κ → List ε}
    {ok : σ × (κ → List ε) → ℓ → Prop} {s₀ : σ} {x : σ × (κ → List ε)} {V : σ → κ → α → Prop}
    {J : σ × (κ → List ε) → Prop} (h : Reach (withLog step note) ok (s₀, fun _ => []) x)
    (hJ : ∀ y, Reach (withLog step note) ok (s₀, fun _ => []) y → J y)
    (h0 : ∀ k a, ¬ V s₀ k a)
    (hs : ∀ s g l s', J (s, g) → step s l = some s' →
      ∀ k, PartStep next init (V s k) (V s' k) (g k) (note s l g k)) (k : κ) :
    Follows next init (V x.1 k) (x.2 k) := by
  revert k
  refine h.inv_of (J := J) (I := fun x => ∀ k, Follows next init (V x.1 k) (x.2 k)) hJ
    (fun k => ?_) ?_
  · exact ⟨init, rfl, fun b hb => absurd hb (h0 k b)⟩
  · rintro ⟨s, g⟩ l ⟨s', g'⟩ hj - ih - hst k
    obtain ⟨hst, hg⟩ := withLog_cases hst
    exact (ih k).step (hg ▸ hs s g l s' hj hst k)

end Follows

end Lts
