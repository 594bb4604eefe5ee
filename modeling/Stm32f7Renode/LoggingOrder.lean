import Mathlib.Data.Fintype.Defs
import Stm32f7Renode.LoggingInvariant

namespace Stm32f7Renode.Logging
open WireText

variable {T : Type*} [DecidableEq T] {names : T → CString} {s s' : State T}

def Pc.numberOf : Pc → Option UInt32
  | .numbered n _ => some n
  | .take c | .takeDelay c => some c.xMessageNumber
  | _ => none

def Pc.stampOf : Pc → Option UInt32
  | .stamped tickCount _ => some tickCount
  | .take c | .takeDelay c => some c.tickCount
  | _ => none

def Pc.stampLe (p q : Pc) : Bool :=
  match p.stampOf, q.stampOf with
  | some x, some y => decide (x ≤ y)
  | _, _ => true

/-- Whenever the mutex is granted, it goes to the call with the oldest number among those
waiting, and as long as the tick counter has not wrapped, no other call in front of the mutex has
read an earlier tick. -/
def InTurn (s : State T) (l : Label T) : Prop :=
  ∀ t, l = .task t .take → s.kernel.hist.waiting.head? = some t ∧
    (s.kernel.tickCount < 2 ^ 32 → ∀ u, (s.pc t).stampLe (s.pc u) = true)

instance [Fintype T] (s : State T) (l : Label T) : Decidable (InTurn s l) :=
  inferInstanceAs (Decidable (∀ _, _ → _))

/-- The records of all calls that have been granted the mutex or did not need it. -/
def State.granted (s : State T) : List LogItem :=
  s.kernel.hist.direct ++ s.kernel.hist.acquired.map Prod.snd

/-- The numbers of all calls so far, those that wait last. -/
def State.numbers (s : State T) : List (Option UInt32) :=
  s.granted.map (fun c => some c.xMessageNumber) ++
    s.kernel.hist.waiting.map fun t => (s.pc t).numberOf

theorem emitted_prefix (h : (loggingSystem names).Reachable s) : s.emitted <+: s.granted := by
  have ha := (reachable_inv h).acquired
  unfold State.emitted State.granted
  rw [ha, List.map_append, ← List.append_assoc]
  apply List.prefix_append

section Step

variable {k k' : Kernel T} {t : T} {n : CString} {a : Act} {p p' : Pc}

theorem CallStep.numbering (h : CallStep t n k a p p' k') :
    (k'.xMessageNumber = k.xMessageNumber ∧ k'.hist.waiting = k.hist.waiting ∧
        k'.hist.acquired = k.hist.acquired ∧ p'.numberOf = p.numberOf) ∨
      (p.numberOf = none ∧ p'.numberOf = some k.xMessageNumber ∧ k' = k.countMessage t) ∨
      ∃ c, a = .take ∧ p = .take c ∧ p' = .spaces c ∧ k' = k.grant t c := by
  cases h with
  | number | numberLast => exact .inr (.inl ⟨rfl, rfl, rfl⟩)
  | take c => exact .inr (.inr ⟨c, rfl, rfl, rfl, rfl⟩)
  | _ => exact .inl ⟨rfl, rfl, rfl, rfl⟩

theorem CallStep.stamping (h : CallStep t n k a p p' k') :
    (k'.hist.acquired = k.hist.acquired ∧
        (p'.stampOf = p.stampOf ∨ p'.stampOf = some k.xTaskGetTickCount)) ∨
      ∃ c, a = .take ∧ p = .take c ∧ p' = .spaces c ∧ k' = k.grant t c := by
  cases h with
  | stamp | stampLast => exact .inl ⟨rfl, .inr rfl⟩
  | take c => exact .inr ⟨c, rfl, rfl, rfl, rfl⟩
  | _ => exact .inl ⟨rfl, .inl rfl⟩

theorem CallStep.frame (h : CallStep t n k a p p' k') :
    k'.tickCount = k.tickCount ∧ k'.hist.direct = k.hist.direct := by
  cases h <;> exact ⟨rfl, rfl⟩

end Step

/-- The numbers are consecutive in the order of the grants and then of the queue. -/
structure NumberInv (s : State T) : Prop where
  nodup : s.kernel.hist.waiting.Nodup
  waiting : ∀ t, t ∈ s.kernel.hist.waiting ↔ (s.pc t).numberOf ≠ none
  numbers : s.numbers = (List.range s.numbers.length).map fun i => some (UInt32.ofNat i)
  next : s.kernel.xMessageNumber = UInt32.ofNat s.numbers.length

theorem map_update_of_not_mem {β : Type*} (f : Pc → β) {pc : T → Pc} {t : T} {p : Pc} {ts : List T}
    (h : t ∉ ts) : (ts.map fun u => f (Function.update pc t p u)) = ts.map fun u => f (pc u) := by
  refine List.map_congr_left fun u hu => ?_
  rw [Function.update_of_ne]
  rintro rfl
  exact h hu

theorem map_update_of_eq {β : Type*} (f : Pc → β) {pc : T → Pc} {t : T} {p : Pc}
    (h : f p = f (pc t)) (ts : List T) :
    (ts.map fun u => f (Function.update pc t p u)) = ts.map fun u => f (pc u) := by
  refine List.map_congr_left fun u _ => ?_
  by_cases hut : u = t
  · subst hut
    rw [Function.update_self, h]
  · rw [Function.update_of_ne hut]

theorem numbers_append {l m : List (Option UInt32)} {n : UInt32}
    (h : l = (List.range l.length).map fun i => some (UInt32.ofNat i))
    (hn : n = UInt32.ofNat l.length) (hm : m = l ++ [some n]) :
    m = ((List.range m.length).map fun i => some (UInt32.ofNat i)) ∧
      n + 1 = UInt32.ofNat m.length := by
  subst hm hn
  constructor
  · rw [List.length_append, List.length_singleton, List.range_succ, List.map_append, ← h]
    rfl
  · rw [List.length_append, List.length_singleton]
    exact (UInt32.ofNat_add l.length 1).symm

theorem numberInv_task {t : T} {a : Act} {p' : Pc} {k' : Kernel T} (hI : NumberInv s)
    (hl : InTurn s (.task t a)) (hc : CallStep t (names t) s.kernel a (s.pc t) p' k') :
    NumberInv { s with pc := Function.update s.pc t p', kernel := k' } := by
  rcases hc.numbering with ⟨hx, hw, ha, hp⟩ | ⟨hp, hp', rfl⟩ | ⟨c, rfl, hp, rfl, rfl⟩
  · have hd := hc.frame.2
    have hsame : State.numbers { s with pc := Function.update s.pc t p', kernel := k' } =
        s.numbers := by
      simp only [State.numbers, State.granted, hw, ha, hd]
      rw [map_update_of_eq Pc.numberOf hp]
    refine ⟨hw ▸ hI.nodup, fun u => ?_, hsame ▸ hI.numbers, ?_⟩
    · rw [hw, hI.waiting u]
      by_cases hut : u = t
      · subst hut
        simp [hp]
      · simp [hut]
    · rw [hsame]
      exact hx.trans hI.next
  · have ht : t ∉ s.kernel.hist.waiting := fun h => (hI.waiting t).mp h hp
    have hnew := numbers_append hI.numbers hI.next
      (m := State.numbers { s with
        pc := Function.update s.pc t p', kernel := s.kernel.countMessage t })
      (by
        simp only [State.numbers, State.granted, Kernel.countMessage, List.map_append,
          map_update_of_not_mem Pc.numberOf ht]
        simp [hp'])
    refine ⟨?_, fun u => ?_, hnew.1, hnew.2⟩
    · simpa [Kernel.countMessage] using hI.nodup.concat ht
    · by_cases hut : u = t
      · subst hut
        simp [Kernel.countMessage, hp']
      · simp [Kernel.countMessage, hut, hI.waiting u]
  · -- the granted call moves from the head of the queue behind the granted records
    obtain ⟨rest, hw⟩ := List.head?_eq_some_iff.mp (hl t rfl).1
    have hnd := hI.nodup
    rw [hw, List.nodup_cons] at hnd
    have hrest : s.kernel.hist.waiting.erase t = rest := by rw [hw, List.erase_cons_head]
    have hsame : State.numbers { s with
        pc := Function.update s.pc t (.spaces c), kernel := s.kernel.grant t c } = s.numbers := by
      simp only [State.numbers, State.granted, Kernel.grant, hrest,
        map_update_of_not_mem Pc.numberOf hnd.1]
      simp [hw, hp, Pc.numberOf]
    refine ⟨?_, fun u => ?_, hsame ▸ hI.numbers, ?_⟩
    · simpa only [Kernel.grant, hrest] using hnd.2
    · by_cases hut : u = t
      · subst hut
        simp [Kernel.grant, hrest, hnd.1, Pc.numberOf]
      · have hu := hI.waiting u
        simp only [hw, List.mem_cons, hut, false_or] at hu
        simp [Kernel.grant, hrest, hut, hu]
    · rw [hsame]
      exact hI.next

theorem numberInv_step {l : Label T} (hr : (loggingSystem names).Reachable s) (hI : NumberInv s)
    (hl : InTurn s l) (h : SysStep names s l s') : NumberInv s' := by
  cases h with
  | early body hs =>
    have hq := reachable_quiet hr hs
    have hw : s.kernel.hist.waiting = [] := by
      refine List.eq_nil_iff_forall_not_mem.mpr fun t ht => (hI.waiting t).mp ht ?_
      rw [hq.idle]
      rfl
    have hnew := numbers_append hI.numbers hI.next
      (m := State.numbers { s with kernel := { s.kernel with hist := { s.kernel.hist with
        direct := s.kernel.hist.direct ++ [s.kernel.earlyItem body] } } })
      (by simp [State.numbers, State.granted, hq.acquired, hw, Kernel.earlyItem])
    exact ⟨hI.nodup, hI.waiting, hnew.1, hnew.2⟩
  | task t a _ hc => exact numberInv_task hI hl hc
  | _ => exact ⟨hI.nodup, hI.waiting, hI.numbers, hI.next⟩

theorem inTurn_numberInv (h : (loggingSystem names).ReachableBy InTurn s) : NumberInv s := by
  refine h.invariant (fun s hs => ?_)
    (fun s l s' hr hI hl (hs : step names s l = some s') =>
      numberInv_step hr.reachable hI hl (step_cases hs))
  obtain ⟨ucRxData, -, rfl⟩ := hs
  exact ⟨List.nodup_nil, fun _ => by simp [vSetupLoggingTask, History.empty, Pc.numberOf], rfl, rfl⟩

/-- Stamps are monotone in the order of the grants, and no stamp lies in the future or, once
it waits, behind a granted one. -/
structure TickInv (s : State T) : Prop where
  sorted : s.granted.Pairwise fun c d => c.tickCount ≤ d.tickCount
  past : ∀ c ∈ s.granted, c.tickCount ≤ s.kernel.xTaskGetTickCount
  pendingPast : ∀ t, ∀ x ∈ (s.pc t).stampOf, x ≤ s.kernel.xTaskGetTickCount
  pendingLate : ∀ t, ∀ x ∈ (s.pc t).stampOf, ∀ c ∈ s.granted, c.tickCount ≤ x

theorem le_of_stampLe {p q : Pc} (h : p.stampLe q = true) {x y : UInt32} (hx : x ∈ p.stampOf)
    (hy : y ∈ q.stampOf) : x ≤ y := by
  rw [Option.mem_def] at hx hy
  simpa [Pc.stampLe, hx, hy] using h

theorem pairwise_snoc {α : Type*} {R : α → α → Prop} {l : List α} {x : α} (h : l.Pairwise R)
    (hx : ∀ y ∈ l, R y x) : (l ++ [x]).Pairwise R :=
  List.pairwise_append.mpr ⟨h, List.pairwise_singleton R x, fun y hy _ hz =>
    List.mem_singleton.mp hz ▸ hx y hy⟩

theorem tickInv_task {t : T} {a : Act} {p' : Pc} {k' : Kernel T} (hI : TickInv s)
    (hlt : s.kernel.tickCount < 2 ^ 32)
    (hl : InTurn s (.task t a)) (hc : CallStep t (names t) s.kernel a (s.pc t) p' k') :
    TickInv { s with pc := Function.update s.pc t p', kernel := k' } := by
  have hf := hc.frame
  have hnow : k'.xTaskGetTickCount = s.kernel.xTaskGetTickCount :=
    congrArg UInt32.ofNat hf.1
  rcases hc.stamping with ⟨ha, hp⟩ | ⟨c, rfl, hp, rfl, rfl⟩
  · have hsame : State.granted { s with pc := Function.update s.pc t p', kernel := k' } =
        s.granted := by
      simp only [State.granted, ha, hf.2]
    -- a new stamp is the present tick
    have hpend : ∀ u, ∀ x ∈ (Function.update s.pc t p' u).stampOf,
        x ∈ (s.pc u).stampOf ∨ x = s.kernel.xTaskGetTickCount := by
      intro u x hx
      by_cases hut : u = t
      · subst hut
        rw [Function.update_self] at hx
        rcases hp with hp | hp
        · exact .inl (hp ▸ hx)
        · rw [hp] at hx
          exact .inr (Option.some.inj hx).symm
      · rw [Function.update_of_ne hut] at hx
        exact .inl hx
    refine ⟨hsame ▸ hI.sorted, ?_, fun u x hx => ?_, fun u x hx => ?_⟩
    · rw [hsame, hnow]
      exact hI.past
    · rw [hnow]
      rcases hpend u x hx with hx | rfl
      · exact hI.pendingPast u x hx
      · exact UInt32.le_refl _
    · rw [hsame]
      rcases hpend u x hx with hx | rfl
      · exact hI.pendingLate u x hx
      · exact hI.past
  · have hnew : State.granted { s with
        pc := Function.update s.pc t (.spaces c), kernel := s.kernel.grant t c } =
        s.granted ++ [c] := by
      simp [State.granted, Kernel.grant]
    have hmem : c.tickCount ∈ (s.pc t).stampOf := hp ▸ rfl
    have hpend : ∀ u, ∀ x ∈ (Function.update s.pc t (.spaces c) u).stampOf,
        x ∈ (s.pc u).stampOf := by
      intro u x hx
      by_cases hut : u = t
      · subst hut
        simp [Pc.stampOf] at hx
      · rwa [Function.update_of_ne hut] at hx
    refine ⟨?_, fun d hd => ?_, fun u x hx => hI.pendingPast u x (hpend u x hx),
      fun u x hx d hd => ?_⟩
    · rw [hnew]
      exact pairwise_snoc hI.sorted (hI.pendingLate t c.tickCount hmem)
    · rw [hnew, List.mem_append, List.mem_singleton] at hd
      rcases hd with hd | rfl
      · exact hI.past d hd
      · exact hI.pendingPast t d.tickCount hmem
    · rw [hnew, List.mem_append, List.mem_singleton] at hd
      rcases hd with hd | rfl
      · exact hI.pendingLate u x (hpend u x hx) d hd
      · exact le_of_stampLe ((hl t rfl).2 hlt u) hmem (hpend u x hx)

omit [DecidableEq T] in
theorem tick_le {k : Kernel T} (h : k.tickCount + 1 < 2 ^ 32) :
    k.xTaskGetTickCount ≤ UInt32.ofNat (k.tickCount + 1) := by
  rw [Kernel.xTaskGetTickCount, UInt32.le_iff_toNat_le, UInt32.toNat_ofNat', UInt32.toNat_ofNat',
    Nat.mod_eq_of_lt h, Nat.mod_eq_of_lt (by omega)]
  omega

theorem tickInv_step {l : Label T} (hr : (loggingSystem names).Reachable s)
    (hI : s.kernel.tickCount < 2 ^ 32 → TickInv s) (hl : InTurn s l) (h : SysStep names s l s')
    (hlt : s'.kernel.tickCount < 2 ^ 32) : TickInv s' := by
  cases h with
  | early body hs =>
    have hI := hI hlt
    have hq := reachable_quiet hr hs
    have hg : s.granted = s.kernel.hist.direct := by simp [State.granted, hq.acquired]
    have hpast := hg ▸ hI.past
    have hidle : ∀ t x, x ∉ (s.pc t).stampOf := fun t x hx => by simp [hq.idle, Pc.stampOf] at hx
    refine ⟨?_, fun d hd => ?_, fun t x hx => absurd hx (hidle t x),
      fun t x hx => absurd hx (hidle t x)⟩
    · simp only [State.granted, hq.acquired, List.map_nil, List.append_nil]
      exact pairwise_snoc (hg ▸ hI.sorted) hpast
    · simp only [State.granted, hq.acquired, List.map_nil, List.append_nil, List.mem_append,
        List.mem_singleton] at hd
      rcases hd with hd | rfl
      · exact hpast d hd
      · exact UInt32.le_refl _
  | tick =>
    have hI := hI (Nat.lt_of_succ_lt hlt)
    have hle := tick_le hlt
    exact { hI with
      past := fun c hc => UInt32.le_trans (hI.past c hc) hle
      pendingPast := fun t x hx => UInt32.le_trans (hI.pendingPast t x hx) hle }
  | task t a _ hc =>
    have hbefore : s.kernel.tickCount < 2 ^ 32 := hc.frame.1 ▸ hlt
    exact tickInv_task (hI hbefore) hbefore hl hc
  | _ => exact { hI hlt with }

theorem inTurn_tickInv (h : (loggingSystem names).ReachableBy InTurn s)
    (hlt : s.kernel.tickCount < 2 ^ 32) : TickInv s := by
  revert hlt
  refine h.invariant (I := fun s => s.kernel.tickCount < 2 ^ 32 → TickInv s) (fun s hs _ => ?_)
    (fun s l s' hr hI hl (hs : step names s l = some s') =>
      tickInv_step hr.reachable hI hl (step_cases hs))
  obtain ⟨ucRxData, -, rfl⟩ := hs
  exact ⟨List.Pairwise.nil, nofun, nofun, nofun⟩

/-- The `i`-th emitted record carries number `i`, and the stamps never go backwards before the
tick counter wraps. -/
def InOrder (s : State T) : Prop :=
  s.emitted.map LogItem.xMessageNumber = (List.range s.emitted.length).map UInt32.ofNat ∧
    (s.kernel.tickCount < 2 ^ 32 → s.emitted.Pairwise fun c d => c.tickCount ≤ d.tickCount)

/-- In every run that grants the mutex in turn, the emitted records are in order. -/
theorem granted_in_turn_inOrder (h : (loggingSystem names).ReachableBy InTurn s) : InOrder s := by
  have hp := emitted_prefix h.reachable
  refine ⟨?_, fun hlt => (inTurn_tickInv h hlt).sorted.sublist hp.sublist⟩
  have hpn : s.emitted.map (fun c => some c.xMessageNumber) <+: s.numbers :=
    (hp.map _).trans (List.prefix_append _ _)
  rw [(inTurn_numberInv h).numbers] at hpn
  have hn := eq_map_range_of_prefix hpn
  refine List.map_injective_iff.mpr (Option.some_injective UInt32) ?_
  simpa [List.map_map, Function.comp_def] using hn

/-- Both tasks form their records, `B` first, and emit them in this order, a tick apart. -/
def orderlyRun : List (Label Bool) :=
  [.start] ++ formRecord false ++ [.tick] ++ formRecord true ++ emitRecord false ++ emitRecord true

theorem granted_in_turn_inOrder_orderly :
    ∃ s, (loggingSystem twoNames).execBy InTurn startState orderlyRun = some s ∧ InOrder s := by
  obtain ⟨s, hs⟩ := Option.isSome_iff_exists.mp
    (by decide : ((loggingSystem twoNames).execBy InTurn startState orderlyRun).isSome = true)
  have hinit : (loggingSystem twoNames).ReachableBy InTurn startState := .init ⟨_, rfl, rfl⟩
  exact ⟨s, hs, granted_in_turn_inOrder (hinit.execBy hs)⟩

/-- `A` is numbered before `B`, but `B` is the first to take the mutex. -/
def overtakingRun : List (Label Bool) :=
  [.start] ++ formRecord true ++ formRecord false ++ emitRecord false

theorem overtaken_number_not_inOrder :
    ¬ ∀ s, (loggingSystem twoNames).Reachable s → InOrder s := by
  intro h
  have hrun : ((loggingSystem twoNames).exec startState overtakingRun).map
      (fun s => s.emitted.map LogItem.xMessageNumber) = some [1] := by decide
  obtain ⟨s, -, hreach, he⟩ := startState_reachable.exec_map hrun
  have hn := (h s hreach).1
  have hlen : s.emitted.length = 1 := by simpa using congrArg List.length he
  rw [he, hlen] at hn
  exact absurd hn (by decide)

end Stm32f7Renode.Logging
