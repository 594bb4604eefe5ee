import Mathlib.Data.List.Induction
import Mathlib.Data.Option.Basic
import Mathlib.Order.Monotone.Basic

/-!
A system has initial states and, for each action, at most one next state.
`ReachableBy C` are the states of runs all of whose steps meet the condition
`C`; `Reachable` puts no condition on the steps.
-/

structure TransitionSystem (σ α : Type*) where
  init : σ → Prop
  step : σ → α → Option σ

namespace TransitionSystem

variable {σ α : Type*} {M : TransitionSystem σ α} {C D : σ → α → Prop}

inductive ReachableBy (M : TransitionSystem σ α) (C : σ → α → Prop) : σ → Prop
  | init {s : σ} : M.init s → ReachableBy M C s
  | step {s t : σ} {a : α} : ReachableBy M C s → C s a → M.step s a = some t → ReachableBy M C t

abbrev Reachable (M : TransitionSystem σ α) : σ → Prop := M.ReachableBy fun _ _ => True

def exec (M : TransitionSystem σ α) : σ → List α → Option σ
  | s, [] => some s
  | s, a :: as => (M.step s a).bind fun t => M.exec t as

/-- As `exec`, stopping also at a step that does not meet the condition. -/
def execBy (M : TransitionSystem σ α) (C : σ → α → Prop) [∀ s a, Decidable (C s a)] :
    σ → List α → Option σ
  | s, [] => some s
  | s, a :: as => if C s a then (M.step s a).bind fun t => M.execBy C t as else none

theorem ReachableBy.mono (hCD : ∀ s a, C s a → D s a) {s : σ} (h : M.ReachableBy C s) :
    M.ReachableBy D s := by
  induction h with
  | init hs => exact .init hs
  | step _ hc ht ih => exact .step ih (hCD _ _ hc) ht

theorem ReachableBy.reachable {s : σ} (h : M.ReachableBy C s) : M.Reachable s :=
  h.mono fun _ _ _ => trivial

/-- The invariant rule; the step may use that its source is reachable. -/
theorem ReachableBy.invariant {I : σ → Prop} (hinit : ∀ s, M.init s → I s)
    (hstep : ∀ s a t, M.ReachableBy C s → I s → C s a → M.step s a = some t → I t)
    {s : σ} (h : M.ReachableBy C s) : I s := by
  induction h with
  | init hs => exact hinit _ hs
  | step hs hc ht ih => exact hstep _ _ _ hs ih hc ht

theorem exec_cons_some {s t : σ} {a : α} {as : List α} :
    M.exec s (a :: as) = some t ↔ ∃ u, M.step s a = some u ∧ M.exec u as = some t := by
  rw [exec, Option.bind_eq_some_iff]

theorem exec_singleton (s : σ) (a : α) : M.exec s [a] = M.step s a := Option.bind_fun_some _

theorem exec_append (s : σ) (as bs : List α) :
    M.exec s (as ++ bs) = (M.exec s as).bind fun t => M.exec t bs := by
  induction as generalizing s with
  | nil => rfl
  | cons a as ih => simp only [List.cons_append, exec, Option.bind_assoc, ih]

theorem Reachable.exec {s t : σ} {as : List α} (hs : M.Reachable s) (h : M.exec s as = some t) :
    M.Reachable t := by
  induction as generalizing s with
  | nil => exact Option.some.inj h ▸ hs
  | cons a as ih =>
    obtain ⟨u, hu, h⟩ := exec_cons_some.mp h
    exact ih (hs.step trivial hu) h

theorem Reachable.exec_map {β : Type*} {f : σ → β} {b : β} {s : σ} {as : List α}
    (hs : M.Reachable s) (h : (M.exec s as).map f = some b) :
    ∃ t, M.exec s as = some t ∧ M.Reachable t ∧ f t = b := by
  obtain ⟨t, ht, hb⟩ := Option.map_eq_some_iff.mp h
  exact ⟨t, ht, hs.exec ht, hb⟩

theorem ReachableBy.execBy [∀ s a, Decidable (C s a)] {s t : σ} {as : List α}
    (hs : M.ReachableBy C s) (h : M.execBy C s as = some t) : M.ReachableBy C t := by
  induction as generalizing s with
  | nil => exact Option.some.inj h ▸ hs
  | cons a as ih =>
    obtain ⟨hc, h⟩ := Option.ite_none_right_eq_some.mp h
    obtain ⟨u, hu, h⟩ := Option.bind_eq_some_iff.mp h
    exact ih (hs.step hc hu) h

/-- The run rule: a relation to the source that each step preserves holds along a run. -/
theorem exec_invariant {I : σ → List α → Prop} {s t : σ} {as : List α} (hs : I s [])
    (hstep : ∀ u v bs a, bs ++ [a] <+: as → I u bs → M.step u a = some v → I v (bs ++ [a]))
    (h : M.exec s as = some t) : I t as := by
  induction as using List.reverseRecOn generalizing t with
  | nil => exact Option.some.inj h ▸ hs
  | append_singleton as a ih =>
    rw [exec_append, Option.bind_eq_some_iff] at h
    obtain ⟨u, hu, h⟩ := h
    obtain ⟨v, hv, h⟩ := exec_cons_some.mp h
    obtain rfl := Option.some.inj h
    refine hstep u v as a List.prefix_rfl (ih (fun u v bs a hp => ?_) hu) hv
    exact hstep u v bs a (hp.trans (List.prefix_append _ _))

section Refinement

variable {τ β : Type*} {N : TransitionSystem τ β} {f : σ → τ}

/-- The refinement rule: every step is one of the other system, or changes nothing in it. -/
theorem ReachableBy.refine {D : τ → β → Prop} (hinit : ∀ s, M.init s → N.init (f s))
    (hstep : ∀ s a t, M.ReachableBy C s → C s a → M.step s a = some t →
      f t = f s ∨ ∃ b, D (f s) b ∧ N.step (f s) b = some (f t))
    {s : σ} (h : M.ReachableBy C s) : N.ReachableBy D (f s) := by
  induction h with
  | init hs => exact .init (hinit _ hs)
  | step hs hc ht ih =>
    rcases hstep _ _ _ hs hc ht with he | ⟨b, hb, hn⟩
    · rw [he]
      exact ih
    · exact ih.step hb hn

/-- The actions of another system that the actions of a run stand for. -/
def trace (M : TransitionSystem σ α) (g : σ → α → List β) : σ → List α → List β
  | _, [] => []
  | s, a :: as => g s a ++ ((M.step s a).map fun t => M.trace g t as).getD []

end Refinement

/-- Every run from the state is finite up to a state with `Q`, and none gets stuck before. -/
inductive Inevitable (M : TransitionSystem σ α) (Q : σ → Prop) : σ → Prop
  | here {s : σ} : Q s → Inevitable M Q s
  | next {s : σ} : (∃ a t, M.step s a = some t) →
      (∀ a t, M.step s a = some t → Inevitable M Q t) → Inevitable M Q s

theorem Inevitable.of_step [Nonempty α] {Q : σ → Prop} {s t : σ} (h : ∀ a, M.step s a = some t)
    (ht : M.Inevitable Q t) : M.Inevitable Q s := by
  refine .next ⟨Classical.arbitrary α, t, h _⟩ fun a u hu => ?_
  obtain rfl := Option.some.inj ((h a).symm.trans hu)
  exact ht

/-- The variant rule: an invariant that leaves `Q` or an enabled step, and a measure that every
step decreases. -/
theorem Inevitable.of_measure {I Q : σ → Prop} (f : σ → ℕ)
    (henabled : ∀ s, I s → Q s ∨ ∃ a t, M.step s a = some t)
    (hstep : ∀ s a t, I s → M.step s a = some t → I t ∧ f t < f s) {s : σ} (hs : I s) :
    M.Inevitable Q s := by
  induction hn : f s using Nat.strongRecOn generalizing s with
  | ind n ih =>
    rcases henabled s hs with hq | he
    · exact .here hq
    · refine .next he fun a t ht => ?_
      obtain ⟨hI, hlt⟩ := hstep s a t hs ht
      exact ih (f t) (hn ▸ hlt) hI rfl

/-- The bound rule: when every step decreases a measure by at least the number of actions that it
stands for, a run stands for no more actions than the measure at its start. -/
theorem exec_trace_length {β : Type*} {I : σ → Prop} {P : α → Prop} {g : σ → α → List β} (f : σ → ℕ)
    (hstep : ∀ s a t, I s → P a → M.step s a = some t → I t ∧ f t + (g s a).length ≤ f s)
    {s t : σ} {as : List α} (hs : I s) (has : ∀ a ∈ as, P a) (h : M.exec s as = some t) :
    I t ∧ f t + (M.trace g s as).length ≤ f s := by
  induction as generalizing s with
  | nil =>
    obtain rfl := Option.some.inj h
    exact ⟨hs, le_rfl⟩
  | cons a as ih =>
    obtain ⟨u, hu, h⟩ := exec_cons_some.mp h
    obtain ⟨ha, has⟩ := List.forall_mem_cons.mp has
    obtain ⟨hI, hle⟩ := hstep s a u hs ha hu
    obtain ⟨ht, hlen⟩ := ih hI has h
    refine ⟨ht, ?_⟩
    rw [trace, hu, Option.map_some, Option.getD_some, List.length_append]
    omega

def Enabled (M : TransitionSystem σ α) (A : α → Prop) (s : σ) : Prop :=
  ∃ a t, A a ∧ M.step s a = some t

structure Behaviour (M : TransitionSystem σ α) where
  state : ℕ → σ
  act : ℕ → α
  step : ∀ n, M.step (state n) (act n) = some (state (n + 1))

namespace Behaviour

variable (b : M.Behaviour)

theorem invariant {I : σ → Prop} (h0 : I (b.state 0))
    (hstep : ∀ n, I (b.state n) → M.step (b.state n) (b.act n) = some (b.state (n + 1)) →
      I (b.state (n + 1))) (n : ℕ) : I (b.state n) := by
  induction n with
  | zero => exact h0
  | succ n ih => exact hstep n ih (b.step n)

theorem measure_antitone {f : σ → ℕ} (hstep : ∀ n, f (b.state (n + 1)) ≤ f (b.state n)) :
    Antitone fun n => f (b.state n) :=
  antitone_nat_of_succ_le hstep

/-- The fairness rule: when the measure never grows, and falls again and again until `Q` holds,
`Q` holds at some time. -/
theorem eventually {Q : σ → Prop} (f : σ → ℕ)
    (hstep : ∀ n, f (b.state (n + 1)) ≤ f (b.state n))
    (hfair : ∀ n, ¬ Q (b.state n) → ∃ m ≥ n, f (b.state (m + 1)) < f (b.state m)) :
    ∃ n, Q (b.state n) := by
  have hmono := b.measure_antitone hstep
  suffices h : ∀ k n, f (b.state n) = k → ∃ m, Q (b.state m) from h _ 0 rfl
  intro k
  induction k using Nat.strongRecOn with
  | ind k ih =>
    intro n hn
    by_cases hq : Q (b.state n)
    · exact ⟨n, hq⟩
    · obtain ⟨m, hm, hlt⟩ := hfair n hq
      have hle : f (b.state m) ≤ f (b.state n) := hmono hm
      exact ih _ (by omega) (m + 1) rfl

/-- If actions of the kind `A` are possible again and again, one is taken again and again. -/
def StronglyFair (A : α → Prop) : Prop :=
  (∀ n, ∃ m ≥ n, M.Enabled A (b.state m)) → ∀ n, ∃ m ≥ n, A (b.act m)

variable {b}

theorem StronglyFair.of_enabled {A : α → Prop} (hA : b.StronglyFair A) {n : ℕ}
    (h : ∀ m ≥ n, M.Enabled A (b.state m)) : ∃ m ≥ n, A (b.act m) :=
  hA (fun k => ⟨max k n, le_max_left _ _, h _ (le_max_right _ _)⟩) n

/-- Where a retry `D` leads back to `A` whenever `A` is not possible, `A` is taken. -/
theorem StronglyFair.of_retry {A D : α → Prop} (hA : b.StronglyFair A) (hD : b.StronglyFair D)
    {n : ℕ} (h : ∀ m ≥ n, M.Enabled A (b.state m) ∨ M.Enabled D (b.state m))
    (hretry : ∀ m ≥ n, D (b.act m) → M.Enabled A (b.state (m + 1))) : ∃ m ≥ n, A (b.act m) := by
  refine hA (fun k => ?_) n
  by_contra hnever
  have hdis : ∀ m ≥ k, ¬ M.Enabled A (b.state m) := fun m hm he => hnever ⟨m, hm, he⟩
  obtain ⟨m, hm, hDm⟩ := hD.of_enabled (n := max k n) fun m hm =>
    (h m ((le_max_right _ _).trans hm)).resolve_left (hdis m ((le_max_left _ _).trans hm))
  have hk : k ≤ m + 1 := ((le_max_left _ _).trans hm).trans (Nat.le_succ m)
  exact hdis (m + 1) hk (hretry m ((le_max_right _ _).trans hm) hDm)

theorem StronglyFair.of_disabled {A : α → Prop} {n : ℕ}
    (h : ∀ m ≥ n, ¬ M.Enabled A (b.state m)) : b.StronglyFair A := by
  intro hinf
  obtain ⟨m, hm, he⟩ := hinf n
  exact absurd he (h m hm)

def cons {s : σ} {a : α} (b : M.Behaviour) (h : M.step s a = some (b.state 0)) : M.Behaviour where
  state
    | 0 => s
    | n + 1 => b.state n
  act
    | 0 => a
    | n + 1 => b.act n
  step
    | 0 => h
    | n + 1 => b.step n

theorem exists_repeat {J : σ → Prop} {a : α} (hJ : ∀ u, J u → ∃ v, M.step u a = some v ∧ J v)
    {s : σ} (hs : J s) :
    ∃ b : M.Behaviour, b.state 0 = s ∧ (∀ n, b.act n = a) ∧ ∀ n, J (b.state n) := by
  choose! next hstep hnext using hJ
  have hinv : ∀ n, J (next^[n] s) := by
    intro n
    induction n with
    | zero => exact hs
    | succ n ih =>
      rw [Function.iterate_succ_apply']
      exact hnext _ ih
  refine ⟨⟨fun n => next^[n] s, fun _ => a, fun n => ?_⟩, rfl, fun _ => rfl, hinv⟩
  rw [Function.iterate_succ_apply']
  exact hstep _ (hinv n)

/-- A run, and behind it the same action again and again. -/
theorem exists_of_exec {J : σ → Prop} {a : α} (hJ : ∀ u, J u → ∃ v, M.step u a = some v ∧ J v)
    {s t : σ} {as : List α} (h : M.exec s as = some t) (ht : J t) :
    ∃ b : M.Behaviour, b.state 0 = s ∧ (∀ n, b.act n = as.getD n a) ∧
      ∀ n ≥ as.length, J (b.state n) := by
  induction as generalizing s with
  | nil =>
    obtain rfl := Option.some.inj h
    obtain ⟨b, h0, hact, hinv⟩ := exists_repeat hJ ht
    exact ⟨b, h0, hact, fun n _ => hinv n⟩
  | cons c as ih =>
    obtain ⟨u, hu, h⟩ := exec_cons_some.mp h
    obtain ⟨b, rfl, hact, hinv⟩ := ih h
    refine ⟨b.cons hu, rfl, fun n => ?_, fun n hn => ?_⟩
    · cases n with
      | zero => rfl
      | succ n => exact hact n
    · cases n with
      | zero => simp at hn
      | succ n => exact hinv n (Nat.le_of_succ_le_succ hn)

end Behaviour

/-- An invariant that excludes `Q` makes it avoidable. -/
theorem not_inevitable {I Q : σ → Prop} (hIQ : ∀ s, I s → ¬ Q s)
    (hstep : ∀ s a t, I s → M.step s a = some t → I t) {s : σ} (hs : I s) :
    ¬ M.Inevitable Q s := by
  intro h
  induction h with
  | here hq => exact hIQ _ hs hq
  | next he _ ih =>
    obtain ⟨a, t, ht⟩ := he
    exact ih a t ht (hstep _ a t hs ht)

end TransitionSystem
