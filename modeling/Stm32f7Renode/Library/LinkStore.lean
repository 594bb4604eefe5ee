import Mathlib.Data.Finset.Basic
import Mathlib.Data.List.Basic

/-!
A source or target can be removed only while nothing is linked to it. A list of
removals undoes any use of a list of additions if it accounts for all that the
additions can leave behind; `Residue` keeps that account.
-/

@[ext]
structure LinkStore (α β : Type*) where
  sources : Finset α
  targets : Finset β
  links : Finset (α × β)
  linked : ∀ l ∈ links, l.1 ∈ sources ∧ l.2 ∈ targets

namespace LinkStore

inductive Op (α β : Type*)
  | addSource (a : α)
  | addTarget (b : β)
  | link (a : α) (b : β)
  | unlink (a : α) (b : β)
  | removeSource (a : α)
  | removeTarget (b : β)
deriving DecidableEq

inductive Error
  | alreadyExists
  | noSuch
  | inUse
deriving DecidableEq, Repr

variable {α β : Type*} [DecidableEq α] [DecidableEq β]

def apply (s : LinkStore α β) : Op α β → Except Error (LinkStore α β)
  | .addSource a =>
    if a ∈ s.sources then .error .alreadyExists
    else .ok { s with
      sources := insert a s.sources
      linked := fun l hl => (s.linked l hl).imp_left Finset.mem_insert_of_mem }
  | .addTarget b =>
    if b ∈ s.targets then .error .alreadyExists
    else .ok { s with
      targets := insert b s.targets
      linked := fun l hl => (s.linked l hl).imp_right Finset.mem_insert_of_mem }
  | .link a b =>
    if h : a ∈ s.sources ∧ b ∈ s.targets then .ok { s with
      links := insert (a, b) s.links
      linked := Finset.forall_mem_insert _ _ _ |>.mpr ⟨h, s.linked⟩ }
    else .error .noSuch
  | .unlink a b =>
    if (a, b) ∈ s.links then .ok { s with
      links := s.links.erase (a, b)
      linked := fun l hl => s.linked l (Finset.mem_of_mem_erase hl) }
    else .error .noSuch
  | .removeSource a =>
    if a ∈ s.sources then
      if h : ∀ l ∈ s.links, l.1 ≠ a then .ok { s with
        sources := s.sources.erase a
        linked := fun l hl => (s.linked l hl).imp_left (Finset.mem_erase_of_ne_of_mem (h l hl)) }
      else .error .inUse
    else .error .noSuch
  | .removeTarget b =>
    if b ∈ s.targets then
      if h : ∀ l ∈ s.links, l.2 ≠ b then .ok { s with
        targets := s.targets.erase b
        linked := fun l hl => (s.linked l hl).imp_right (Finset.mem_erase_of_ne_of_mem (h l hl)) }
      else .error .inUse
    else .error .noSuch

/-- A failing operation changes nothing. -/
def after (s : LinkStore α β) (op : Op α β) : LinkStore α β :=
  match s.apply op with
  | .ok t => t
  | .error _ => s

def run (s : LinkStore α β) (ops : List (Op α β)) : LinkStore α β := ops.foldl after s

structure Residue (α β : Type*) where
  sources : List α
  targets : List β
  links : List (α × β)
deriving DecidableEq

def Residue.of (setup : List (Op α β)) : Residue α β where
  sources := setup.filterMap fun
    | .addSource a => some a
    | _ => none
  targets := setup.filterMap fun
    | .addTarget b => some b
    | _ => none
  links := setup.filterMap fun
    | .link a b => some (a, b)
    | _ => none

/-- The operation adds nothing that is not accounted for, and removes nothing. -/
def Residue.Allows (R : Residue α β) : Op α β → Prop
  | .addSource a => a ∈ R.sources
  | .addTarget b => b ∈ R.targets
  | .link a b => (a, b) ∈ R.links
  | _ => False

instance (R : Residue α β) : DecidablePred R.Allows
  | .addSource a => inferInstanceAs (Decidable (a ∈ R.sources))
  | .addTarget b => inferInstanceAs (Decidable (b ∈ R.targets))
  | .link a b => inferInstanceAs (Decidable ((a, b) ∈ R.links))
  | .unlink .. | .removeSource _ | .removeTarget _ => .isFalse id

/-- What may be left after a removal; `none` if it may fail, or remove something else. -/
def Residue.remove (R : Residue α β) : Op α β → Option (Residue α β)
  | .unlink a b =>
    if a ∈ R.sources then some { R with links := R.links.filter (· ≠ (a, b)) } else none
  | .removeSource a =>
    if a ∈ R.sources ∧ a ∉ R.links.map Prod.fst then
      some { R with sources := R.sources.filter (· ≠ a) }
    else none
  | .removeTarget b =>
    if b ∈ R.targets ∧ b ∉ R.links.map Prod.snd then
      some { R with targets := R.targets.filter (· ≠ b) }
    else none
  | _ => none

/-- The removals account for all that the additions can leave behind. -/
structure Covers (setup teardown : List (Op α β)) : Prop where
  adds : ∀ op ∈ setup, (Residue.of setup).Allows op
  removes : teardown.foldlM Residue.remove (Residue.of setup) = some ⟨[], [], []⟩

end LinkStore

structure Between {γ : Type*} (A : Finset γ) (R : List γ) (s : Finset γ) : Prop where
  sub : A ⊆ s
  mem : ∀ x ∈ s, x ∈ A ∨ x ∈ R

namespace Between

variable {γ : Type*} {A s : Finset γ} {R : List γ} {x : γ}

theorem refl (A : Finset γ) (R : List γ) : Between A R A := ⟨subset_refl A, fun _ => .inl⟩

theorem eq (h : Between A [] s) : s = A := by
  apply Finset.Subset.antisymm _ h.sub
  intro x hx
  exact (h.mem x hx).resolve_right List.not_mem_nil

variable [DecidableEq γ]

theorem insert (h : Between A R s) (hx : x ∈ R) : Between A R (insert x s) where
  sub := h.sub.trans (Finset.subset_insert x s)
  mem := (Finset.forall_mem_insert ..).mpr ⟨.inr hx, h.mem⟩

theorem erase (h : Between A R s) (hx : x ∉ A) :
    Between A (R.filter (· ≠ x)) (s.erase x) where
  sub := Finset.subset_erase.mpr ⟨h.sub, hx⟩
  mem := by
    intro y hy
    obtain ⟨hne, hy⟩ := Finset.mem_erase.mp hy
    refine (h.mem y hy).imp_right fun hR => ?_
    exact List.mem_filter.mpr ⟨hR, by simpa using hne⟩

theorem erase_of_not_mem (h : Between A R s) (hx : x ∉ A) : Between A R (s.erase x) where
  sub := Finset.subset_erase.mpr ⟨h.sub, hx⟩
  mem y hy := h.mem y (Finset.mem_of_mem_erase hy)

theorem eq_union (h : Between A R s) (hall : ∀ x ∈ R, x ∈ s) : s = A ∪ R.toFinset := by
  ext x
  rw [Finset.mem_union, List.mem_toFinset]
  exact ⟨h.mem x, fun hx => hx.elim (fun hA => h.sub hA) (hall x)⟩

end Between

namespace LinkStore

variable {α β : Type*}

/-- `s` is `A` with some of the residue `R`, whose sources and targets are not in `A`. -/
structure Within (A : LinkStore α β) (R : Residue α β) (s : LinkStore α β) : Prop where
  freshSource : ∀ a ∈ R.sources, a ∉ A.sources
  freshTarget : ∀ b ∈ R.targets, b ∉ A.targets
  sources : Between A.sources R.sources s.sources
  targets : Between A.targets R.targets s.targets
  links : Between A.links R.links s.links

section Within

variable {A s : LinkStore α β} {R : Residue α β}

theorem Within.refl (hs : ∀ a ∈ R.sources, a ∉ A.sources) (ht : ∀ b ∈ R.targets, b ∉ A.targets) :
    Within A R A :=
  ⟨hs, ht, .refl .., .refl .., .refl ..⟩

theorem Within.eq (h : Within A ⟨[], [], []⟩ s) : s = A := by
  ext1
  · exact h.sources.eq
  · exact h.targets.eq
  · exact h.links.eq

theorem Within.source_free (h : Within A R s) {a : α} (ha : a ∈ R.sources)
    (hfree : a ∉ R.links.map Prod.fst) : ∀ l ∈ s.links, l.1 ≠ a := by
  rintro l hl rfl
  -- an old link has an old source, and the residue has no link of this one
  rcases h.links.mem l hl with hA | hR
  · exact h.freshSource _ ha (A.linked l hA).1
  · exact hfree (List.mem_map_of_mem hR)

theorem Within.target_free (h : Within A R s) {b : β} (hb : b ∈ R.targets)
    (hfree : b ∉ R.links.map Prod.snd) : ∀ l ∈ s.links, l.2 ≠ b := by
  rintro l hl rfl
  rcases h.links.mem l hl with hA | hR
  · exact h.freshTarget _ hb (A.linked l hA).2
  · exact hfree (List.mem_map_of_mem hR)

end Within

variable [DecidableEq α] [DecidableEq β]

section Effect

variable (s : LinkStore α β) (a : α) (b : β)

theorem after_addSource :
    (s.after (.addSource a)).sources = insert a s.sources ∧
      (s.after (.addSource a)).targets = s.targets ∧ (s.after (.addSource a)).links = s.links := by
  unfold after apply
  by_cases h : a ∈ s.sources
  · simp only [if_pos h, Finset.insert_eq_self.mpr h, and_self]
  · simp only [if_neg h, and_self]

theorem after_addTarget :
    (s.after (.addTarget b)).sources = s.sources ∧
      (s.after (.addTarget b)).targets = insert b s.targets ∧
      (s.after (.addTarget b)).links = s.links := by
  unfold after apply
  by_cases h : b ∈ s.targets
  · simp only [if_pos h, Finset.insert_eq_self.mpr h, and_self]
  · simp only [if_neg h, and_self]

theorem after_link :
    (s.after (.link a b)).sources = s.sources ∧ (s.after (.link a b)).targets = s.targets ∧
      ((s.after (.link a b)).links = s.links ∨
        (s.after (.link a b)).links = insert (a, b) s.links) := by
  unfold after apply
  by_cases h : a ∈ s.sources ∧ b ∈ s.targets
  · simp only [dif_pos h, or_true, and_self]
  · simp only [dif_neg h, true_or, and_self]

theorem after_unlink :
    (s.after (.unlink a b)).sources = s.sources ∧ (s.after (.unlink a b)).targets = s.targets ∧
      (s.after (.unlink a b)).links = s.links.erase (a, b) := by
  unfold after apply
  by_cases h : (a, b) ∈ s.links
  · simp only [if_pos h, and_self]
  · simp only [if_neg h, Finset.erase_eq_of_notMem h, and_self]

theorem after_removeSource (hfree : ∀ l ∈ s.links, l.1 ≠ a) :
    (s.after (.removeSource a)).sources = s.sources.erase a ∧
      (s.after (.removeSource a)).targets = s.targets ∧
      (s.after (.removeSource a)).links = s.links := by
  unfold after apply
  by_cases h : a ∈ s.sources
  · simp only [if_pos h, dif_pos hfree, and_self]
  · simp only [if_neg h, Finset.erase_eq_of_notMem h, and_self]

theorem after_removeTarget (hfree : ∀ l ∈ s.links, l.2 ≠ b) :
    (s.after (.removeTarget b)).sources = s.sources ∧
      (s.after (.removeTarget b)).targets = s.targets.erase b ∧
      (s.after (.removeTarget b)).links = s.links := by
  unfold after apply
  by_cases h : b ∈ s.targets
  · simp only [if_pos h, dif_pos hfree, and_self]
  · simp only [if_neg h, Finset.erase_eq_of_notMem h, and_self]

end Effect

variable {A s : LinkStore α β} {R R' : Residue α β} {op : Op α β}
  {setup teardown ops : List (Op α β)}

theorem Within.addition (h : Within A R s) (hop : R.Allows op) : Within A R (s.after op) := by
  cases op with
  | addSource a =>
    obtain ⟨hs, ht, hl⟩ := after_addSource s a
    exact ⟨h.freshSource, h.freshTarget, hs ▸ h.sources.insert hop, ht ▸ h.targets, hl ▸ h.links⟩
  | addTarget b =>
    obtain ⟨hs, ht, hl⟩ := after_addTarget s b
    exact ⟨h.freshSource, h.freshTarget, hs ▸ h.sources, ht ▸ h.targets.insert hop, hl ▸ h.links⟩
  | link a b =>
    obtain ⟨hs, ht, hl⟩ := after_link s a b
    refine ⟨h.freshSource, h.freshTarget, hs ▸ h.sources, ht ▸ h.targets, ?_⟩
    rcases hl with hl | hl
    · exact hl ▸ h.links
    · exact hl ▸ h.links.insert hop
  | unlink => exact hop.elim
  | removeSource => exact hop.elim
  | removeTarget => exact hop.elim

theorem Within.removal (h : Within A R s) (hop : R.remove op = some R') :
    Within A R' (s.after op) := by
  cases op with
  | addSource => cases hop
  | addTarget => cases hop
  | link => cases hop
  | unlink a b =>
    obtain ⟨ha, hop⟩ := Option.ite_none_right_eq_some.mp hop
    obtain rfl := Option.some.inj hop
    obtain ⟨hs, ht, hl⟩ := after_unlink s a b
    -- the source is new, so the original store has no such link
    have hnew : (a, b) ∉ A.links := fun hA => h.freshSource a ha (A.linked _ hA).1
    exact ⟨h.freshSource, h.freshTarget, hs ▸ h.sources, ht ▸ h.targets, hl ▸ h.links.erase hnew⟩
  | removeSource a =>
    obtain ⟨⟨ha, hfree⟩, hop⟩ := Option.ite_none_right_eq_some.mp hop
    obtain rfl := Option.some.inj hop
    obtain ⟨hs, ht, hl⟩ := after_removeSource s a (h.source_free ha hfree)
    exact ⟨fun x hx => h.freshSource x (List.mem_of_mem_filter hx), h.freshTarget,
      hs ▸ h.sources.erase (h.freshSource a ha), ht ▸ h.targets, hl ▸ h.links⟩
  | removeTarget b =>
    obtain ⟨⟨hb, hfree⟩, hop⟩ := Option.ite_none_right_eq_some.mp hop
    obtain rfl := Option.some.inj hop
    obtain ⟨hs, ht, hl⟩ := after_removeTarget s b (h.target_free hb hfree)
    exact ⟨h.freshSource, fun x hx => h.freshTarget x (List.mem_of_mem_filter hx),
      hs ▸ h.sources, ht ▸ h.targets.erase (h.freshTarget b hb), hl ▸ h.links⟩

theorem Within.additions (h : Within A R s) (hops : ∀ op ∈ ops, R.Allows op) :
    Within A R (s.run ops) := by
  induction ops generalizing s with
  | nil => exact h
  | cons op ops ih =>
    obtain ⟨hop, hops⟩ := List.forall_mem_cons.mp hops
    exact ih (h.addition hop) hops

theorem Within.removals (h : Within A R s) (hops : ops.foldlM Residue.remove R = some R') :
    Within A R' (s.run ops) := by
  induction ops generalizing s R with
  | nil => exact Option.some.inj hops ▸ h
  | cons op ops ih =>
    rw [List.foldlM_cons] at hops
    obtain ⟨R₁, hop, hops⟩ := Option.bind_eq_some_iff.mp hops
    exact ih (h.removal hop) hops

/-- However many of the additions were made, in whatever order, the removals restore a store that
had none of the sources and targets. -/
theorem Covers.restores (hc : Covers setup teardown)
    (hs : ∀ a ∈ (Residue.of setup).sources, a ∉ A.sources)
    (ht : ∀ b ∈ (Residue.of setup).targets, b ∉ A.targets) (hops : ∀ op ∈ ops, op ∈ setup) :
    (A.run ops).run teardown = A := by
  have hsetup : Within A (Residue.of setup) (A.run ops) :=
    (Within.refl hs ht).additions fun op hop => hc.adds op (hops op hop)
  exact (hsetup.removals hc.removes).eq

def Residue.Touches (R : Residue α β) : Op α β → Prop
  | .unlink a _ => a ∈ R.sources
  | .removeSource a => a ∈ R.sources
  | .removeTarget b => b ∈ R.targets
  | op => R.Allows op

instance (R : Residue α β) : DecidablePred R.Touches
  | .unlink a _ => inferInstanceAs (Decidable (a ∈ R.sources))
  | .removeSource a => inferInstanceAs (Decidable (a ∈ R.sources))
  | .removeTarget b => inferInstanceAs (Decidable (b ∈ R.targets))
  | .addSource a => inferInstanceAs (Decidable (R.Allows (.addSource a)))
  | .addTarget b => inferInstanceAs (Decidable (R.Allows (.addTarget b)))
  | .link a b => inferInstanceAs (Decidable (R.Allows (.link a b)))

theorem after_removeSource_of_used {a : α} (h : ¬ ∀ l ∈ s.links, l.1 ≠ a) :
    s.after (.removeSource a) = s := by
  unfold after apply
  by_cases ha : a ∈ s.sources
  · simp only [if_pos ha, dif_neg h]
  · simp only [if_neg ha]

theorem after_removeTarget_of_used {b : β} (h : ¬ ∀ l ∈ s.links, l.2 ≠ b) :
    s.after (.removeTarget b) = s := by
  unfold after apply
  by_cases hb : b ∈ s.targets
  · simp only [if_pos hb, dif_neg h]
  · simp only [if_neg hb]

theorem Within.touch (h : Within A R s) (hop : R.Touches op) : Within A R (s.after op) := by
  cases op with
  | unlink a b =>
    obtain ⟨hs, ht, hl⟩ := after_unlink s a b
    have hnew : (a, b) ∉ A.links := fun hA => h.freshSource a hop (A.linked _ hA).1
    exact ⟨h.freshSource, h.freshTarget, hs ▸ h.sources, ht ▸ h.targets,
      hl ▸ h.links.erase_of_not_mem hnew⟩
  | removeSource a =>
    by_cases hfree : ∀ l ∈ s.links, l.1 ≠ a
    · obtain ⟨hs, ht, hl⟩ := after_removeSource s a hfree
      exact ⟨h.freshSource, h.freshTarget, hs ▸ h.sources.erase_of_not_mem (h.freshSource a hop),
        ht ▸ h.targets, hl ▸ h.links⟩
    · rw [after_removeSource_of_used hfree]
      exact h
  | removeTarget b =>
    by_cases hfree : ∀ l ∈ s.links, l.2 ≠ b
    · obtain ⟨hs, ht, hl⟩ := after_removeTarget s b hfree
      exact ⟨h.freshSource, h.freshTarget, hs ▸ h.sources,
        ht ▸ h.targets.erase_of_not_mem (h.freshTarget b hop), hl ▸ h.links⟩
    · rw [after_removeTarget_of_used hfree]
      exact h
  | addSource | addTarget | link => exact h.addition hop

theorem Within.touches (h : Within A R s) (hops : ∀ op ∈ ops, R.Touches op) :
    Within A R (s.run ops) := by
  induction ops generalizing s with
  | nil => exact h
  | cons op ops ih =>
    obtain ⟨hop, hops⟩ := List.forall_mem_cons.mp hops
    exact ih (h.touch hop) hops

/-- Additions only, and each link after its source and its target, of which `S` and `T` are
known. -/
def Grounded : List α → List β → List (Op α β) → Prop
  | _, _, [] => True
  | S, T, .addSource a :: ops => Grounded (a :: S) T ops
  | S, T, .addTarget b :: ops => Grounded S (b :: T) ops
  | S, T, .link a b :: ops => a ∈ S ∧ b ∈ T ∧ Grounded S T ops
  | _, _, _ => False

/-- The store has at least what the lists say. -/
structure Contains (s : LinkStore α β) (S : List α) (T : List β) (L : List (α × β)) : Prop where
  sources : ∀ a ∈ S, a ∈ s.sources
  targets : ∀ b ∈ T, b ∈ s.targets
  links : ∀ l ∈ L, l ∈ s.links

theorem Contains.addSource {S : List α} {T : List β} {L : List (α × β)} (h : Contains s S T L)
    (a : α) : Contains (s.after (.addSource a)) (a :: S) T L := by
  obtain ⟨hs, ht, hl⟩ := after_addSource s a
  refine ⟨?_, by rw [ht]; exact h.targets, by rw [hl]; exact h.links⟩
  rw [hs, List.forall_mem_cons]
  exact ⟨Finset.mem_insert_self a _, fun x hx => Finset.mem_insert_of_mem (h.sources x hx)⟩

theorem Contains.addTarget {S : List α} {T : List β} {L : List (α × β)} (h : Contains s S T L)
    (b : β) : Contains (s.after (.addTarget b)) S (b :: T) L := by
  obtain ⟨hs, ht, hl⟩ := after_addTarget s b
  refine ⟨by rw [hs]; exact h.sources, ?_, by rw [hl]; exact h.links⟩
  rw [ht, List.forall_mem_cons]
  exact ⟨Finset.mem_insert_self b _, fun x hx => Finset.mem_insert_of_mem (h.targets x hx)⟩

theorem Contains.link {S : List α} {T : List β} {L : List (α × β)} (h : Contains s S T L)
    {a : α} {b : β} (ha : a ∈ S) (hb : b ∈ T) :
    Contains (s.after (.link a b)) S T ((a, b) :: L) := by
  have hends : a ∈ s.sources ∧ b ∈ s.targets := ⟨h.sources a ha, h.targets b hb⟩
  obtain ⟨hs, ht, -⟩ := after_link s a b
  have hl : (s.after (.link a b)).links = insert (a, b) s.links := by
    unfold after apply
    simp only [dif_pos hends]
  refine ⟨by rw [hs]; exact h.sources, by rw [ht]; exact h.targets, ?_⟩
  rw [hl, List.forall_mem_cons]
  exact ⟨Finset.mem_insert_self _ _, fun x hx => Finset.mem_insert_of_mem (h.links x hx)⟩

/-- A complete set-up makes all that it names, whatever was there before, and loses nothing. -/
theorem Contains.run {S : List α} {T : List β} {L : List (α × β)} (h : Contains s S T L)
    (hg : Grounded S T ops) :
    Contains (s.run ops) ((Residue.of ops).sources ++ S) ((Residue.of ops).targets ++ T)
      ((Residue.of ops).links ++ L) := by
  induction ops generalizing s S T L with
  | nil => exact h
  | cons op ops ih =>
    cases op with
    | addSource a =>
      have hrun := ih (h.addSource a) hg
      exact ⟨fun x hx => hrun.sources x (List.perm_middle.symm.subset hx), hrun.targets, hrun.links⟩
    | addTarget b =>
      have hrun := ih (h.addTarget b) hg
      exact ⟨hrun.sources, fun x hx => hrun.targets x (List.perm_middle.symm.subset hx), hrun.links⟩
    | link a b =>
      obtain ⟨ha, hb, hg⟩ := hg
      have hrun := ih (h.link ha hb) hg
      exact ⟨hrun.sources, hrun.targets, fun x hx =>
        hrun.links x (List.perm_middle.symm.subset hx)⟩
    | unlink | removeSource | removeTarget => exact hg.elim

/-- From any mixture of additions and removals a complete set-up leads to the same store. -/
theorem Within.converges (h : Within A (Residue.of setup) s)
    (hadds : ∀ op ∈ setup, (Residue.of setup).Allows op) {T : List β}
    (hT : ∀ b ∈ T, b ∈ A.targets) (hg : Grounded [] T setup) :
    (s.run setup).sources = A.sources ∪ (Residue.of setup).sources.toFinset ∧
      (s.run setup).targets = A.targets ∪ (Residue.of setup).targets.toFinset ∧
      (s.run setup).links = A.links ∪ (Residue.of setup).links.toFinset := by
  have hall := h.additions hadds
  have hknown : Contains s [] T [] :=
    ⟨fun _ ha => absurd ha List.not_mem_nil, fun b hb => h.targets.sub (hT b hb),
      fun _ hl => absurd hl List.not_mem_nil⟩
  have hrun := hknown.run hg
  exact ⟨hall.sources.eq_union fun a ha => hrun.sources a (List.mem_append_left _ ha),
    hall.targets.eq_union fun b hb => hrun.targets b (List.mem_append_left _ hb),
    hall.links.eq_union fun l hl => hrun.links l (List.mem_append_left _ hl)⟩

end LinkStore
