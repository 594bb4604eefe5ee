import Mathlib.Data.List.Infix

/-!
Texts in which patterns stand for values. Replacing one pattern after the other, each
everywhere, is the same as replacing all of them at once, when no pattern overlaps an earlier
one and no value has a symbol of a later pattern.
-/

namespace Template

variable {α : Type*} [DecidableEq α]

structure Rule (α : Type*) where
  pattern : List α
  value : List α
  ne_nil : pattern ≠ []

def firstMatch (rules : List (Rule α)) (text : List α) : Option (Rule α) :=
  rules.find? fun r => decide (r.pattern <+: text)

/-- Passes over a number of symbols that belong to a match, and instantiates the rest. -/
def instantiateAfter (rules : List (Rule α)) : ℕ → List α → List α
  | _, [] => []
  | k + 1, _ :: text => instantiateAfter rules k text
  | 0, a :: text =>
    match firstMatch rules (a :: text) with
    | none => a :: instantiateAfter rules 0 text
    | some r => r.value ++ instantiateAfter rules (r.pattern.length - 1) text

/-- The text with each pattern replaced by its value, from left to right. -/
def instantiate (rules : List (Rule α)) (text : List α) : List α := instantiateAfter rules 0 text

section Equations

variable {rules : List (Rule α)} {r : Rule α} {text : List α}

theorem instantiateAfter_eq_drop (k : ℕ) :
    instantiateAfter rules k text = instantiate rules (text.drop k) := by
  induction text generalizing k with
  | nil => cases k <;> rfl
  | cons a text ih =>
    cases k with
    | zero => rfl
    | succ k => exact ih k

@[simp]
theorem instantiate_nil : instantiate rules [] = [] := rfl

theorem instantiate_cons {a : α} (h : firstMatch rules (a :: text) = none) :
    instantiate rules (a :: text) = a :: instantiate rules text := by
  rw [instantiate, instantiateAfter, h]
  rfl

theorem instantiate_match (h : firstMatch rules (r.pattern ++ text) = some r) :
    instantiate rules (r.pattern ++ text) = r.value ++ instantiate rules text := by
  obtain ⟨a, rest, hr⟩ := List.exists_cons_of_ne_nil r.ne_nil
  rw [hr, List.cons_append] at h ⊢
  rw [instantiate, instantiateAfter, h]
  simp only [instantiateAfter_eq_drop, hr, List.length_cons, Nat.add_sub_cancel]
  rw [List.drop_left' rfl]

theorem firstMatch_eq_none : firstMatch rules text = none ↔ ∀ r ∈ rules, ¬ r.pattern <+: text := by
  simp [firstMatch, List.find?_eq_none]

theorem firstMatch_some (h : firstMatch rules text = some r) : r ∈ rules ∧ r.pattern <+: text :=
  ⟨List.mem_of_find?_eq_some h, by simpa using List.find?_some h⟩

@[simp]
theorem instantiate_no_rules : instantiate [] text = text := by
  induction text with
  | nil => rfl
  | cons a text ih => rw [instantiate_cons rfl, ih]

/-- The induction over a template: a match and the rest behind it, or a symbol that is copied. -/
theorem induction_on (rules : List (Rule α)) {motive : List α → Prop} (nil : motive [])
    (matched : ∀ r ∈ rules, ∀ rest, firstMatch rules (r.pattern ++ rest) = some r →
      motive rest → motive (r.pattern ++ rest))
    (copied : ∀ a text, firstMatch rules (a :: text) = none → motive text → motive (a :: text))
    (text : List α) : motive text := by
  induction hn : text.length using Nat.strongRecOn generalizing text with
  | ind n ih =>
    cases text with
    | nil => exact nil
    | cons a text =>
      rw [List.length_cons] at hn
      cases hm : firstMatch rules (a :: text) with
      | none => exact copied a text hm (ih text.length (by omega) text rfl)
      | some r =>
        obtain ⟨hr, rest, hrest⟩ := firstMatch_some hm
        have hpos := List.length_pos_iff.mpr r.ne_nil
        have hlen := congrArg List.length hrest
        rw [List.length_append, List.length_cons] at hlen
        rw [← hrest] at hm ⊢
        exact matched r hr rest hm (ih rest.length (by omega) rest rfl)

end Equations

/-- The value is there, and has no symbol of the text `t`. -/
def Rule.Foreign (r : Rule α) (t : List α) : Prop := r.value ≠ [] ∧ ∀ a ∈ r.value, a ∉ t

instance (r : Rule α) (t : List α) : Decidable (r.Foreign t) :=
  inferInstanceAs (Decidable (_ ∧ _))

section Foreign

variable {rules : List (Rule α)} {r : Rule α} {text t : List α}

omit [DecidableEq α] in
theorem Rule.Foreign.not_prefix_append (h : r.Foreign t) (ht : t ≠ []) (rest : List α) :
    ¬ t <+: r.value ++ rest := by
  intro hp
  obtain ⟨a, v, hv⟩ := List.exists_cons_of_ne_nil h.1
  obtain ⟨b, t', rfl⟩ := List.exists_cons_of_ne_nil ht
  rw [hv, List.cons_append, List.cons_prefix_cons] at hp
  exact h.2 a (by simp [hv]) (by simp [hp.1])

theorem prefix_of_prefix_instantiate (h : ∀ r ∈ rules, r.Foreign t)
    (hp : t <+: instantiate rules text) : t <+: text := by
  induction t generalizing text with
  | nil => exact List.nil_prefix
  | cons b t ih =>
    cases text with
    | nil => exact hp
    | cons a text =>
      cases hm : firstMatch rules (a :: text) with
      | some r =>
        obtain ⟨hr, rest, hrest⟩ := firstMatch_some hm
        rw [← hrest] at hm hp
        rw [instantiate_match hm] at hp
        exact absurd hp ((h r hr).not_prefix_append (List.cons_ne_nil b t) _)
      | none =>
        rw [instantiate_cons hm, List.cons_prefix_cons] at hp
        obtain ⟨rfl, hp⟩ := hp
        have ht : ∀ r ∈ rules, r.Foreign t := fun r hr =>
          ⟨(h r hr).1, fun a ha hat => (h r hr).2 a ha (List.mem_cons_of_mem b hat)⟩
        exact List.cons_prefix_cons.mpr ⟨rfl, ih ht hp⟩

omit [DecidableEq α] in
theorem Rule.Foreign.not_infix_append {rest : List α} (h : r.Foreign t) (ht : t ≠ [])
    (hrest : ¬ t <:+: rest) : ¬ t <:+: r.value ++ rest := by
  -- an occurrence that starts in the value has one of its symbols
  have hvalue : ∀ v : List α, (∀ a ∈ v, a ∉ t) → ¬ t <:+: v ++ rest := by
    intro v
    induction v with
    | nil => exact fun _ => hrest
    | cons a v ih =>
      intro hv hocc
      rcases List.infix_cons_iff.mp hocc with hp | hocc
      · obtain ⟨b, t', rfl⟩ := List.exists_cons_of_ne_nil ht
        rw [List.cons_prefix_cons] at hp
        exact hv a List.mem_cons_self (by simp [hp.1])
      · exact ih (fun b hb => hv b (List.mem_cons_of_mem a hb)) hocc
  exact hvalue r.value h.2

/-- No pattern is left. -/
theorem not_infix_instantiate (h : ∀ r ∈ rules, ∀ q ∈ rules, r.Foreign q.pattern) {q : Rule α}
    (hq : q ∈ rules) : ¬ q.pattern <:+: instantiate rules text := by
  induction text using induction_on rules with
  | nil => exact fun hocc => q.ne_nil (List.infix_nil.mp hocc)
  | matched r hr rest hm ih =>
    rw [instantiate_match hm]
    exact (h r hr q hq).not_infix_append q.ne_nil ih
  | copied a text hm ih =>
    intro hocc
    rw [instantiate_cons hm] at hocc
    rcases List.infix_cons_iff.mp hocc with hp | hocc
    · rw [← instantiate_cons hm] at hp
      have hstart := prefix_of_prefix_instantiate (fun r hr => h r hr q hq) hp
      exact firstMatch_eq_none.mp hm q hq hstart
    · exact ih hocc

theorem not_infix_of_foreign (h : ∀ r ∈ rules, r.Foreign t) (ht : t ≠ []) (hnot : ¬ t <:+: text) :
    ¬ t <:+: instantiate rules text := by
  induction text using induction_on rules with
  | nil => exact hnot
  | matched r hr rest hm ih =>
    rw [instantiate_match hm]
    exact (h r hr).not_infix_append ht
      (ih fun hocc => hnot (hocc.trans (List.suffix_append _ _).isInfix))
  | copied a text hm ih =>
    intro hocc
    rw [instantiate_cons hm] at hocc
    rcases List.infix_cons_iff.mp hocc with hp | hocc
    · rw [← instantiate_cons hm] at hp
      exact hnot (prefix_of_prefix_instantiate h hp).isInfix
    · exact ih (fun hi => hnot (hi.trans (List.suffix_cons a text).isInfix)) hocc

theorem instantiate_append_rule (hnot : ¬ r.pattern <:+: text) :
    instantiate (rules ++ [r]) text = instantiate rules text := by
  have hfirst : ∀ l : List α, l <:+ text → firstMatch (rules ++ [r]) l = firstMatch rules l := by
    intro l hl
    have hneg : ¬ r.pattern <+: l := fun hp => hnot (hp.isInfix.trans hl.isInfix)
    simp [firstMatch, List.find?_append, hneg]
  induction text using induction_on rules with
  | nil => rfl
  | matched q hq rest hm ih =>
    have hm' := (hfirst _ List.suffix_rfl).trans hm
    have hrest : rest <:+ q.pattern ++ rest := List.suffix_append _ _
    rw [instantiate_match hm, instantiate_match hm',
      ih (fun hi => hnot (hi.trans hrest.isInfix)) fun l hl => hfirst l (hl.trans hrest)]
  | copied a text hm ih =>
    have hm' := (hfirst _ List.suffix_rfl).trans hm
    have hrest : text <:+ a :: text := List.suffix_cons a text
    rw [instantiate_cons hm, instantiate_cons hm',
      ih (fun hi => hnot (hi.trans hrest.isInfix)) fun l hl => hfirst l (hl.trans hrest)]

theorem filter_instantiate {p : α → Bool}
    (h : ∀ r ∈ rules, (∀ a ∈ r.pattern, p a = false) ∧ ∀ a ∈ r.value, p a = false) :
    (instantiate rules text).filter p = text.filter p := by
  have hnone : ∀ l : List α, (∀ a ∈ l, p a = false) → l.filter p = [] := fun l hl =>
    List.filter_eq_nil_iff.mpr fun a ha => by simp [hl a ha]
  induction text using induction_on rules with
  | nil => rfl
  | matched r hr rest hm ih =>
    rw [instantiate_match hm, List.filter_append, List.filter_append, hnone _ (h r hr).1,
      hnone _ (h r hr).2, ih]
  | copied a text hm ih => rw [instantiate_cons hm, List.filter_cons, List.filter_cons, ih]

end Foreign

/-- No occurrence of `t` inside or across the end of an occurrence of `q`, other than at its
start. -/
def NoOverlap (q t : List α) : Prop :=
  ∀ k, k < q.length → 0 < k → ¬ (q.drop k <+: t ∨ t <+: q.drop k)

instance (q t : List α) : Decidable (NoOverlap q t) :=
  inferInstanceAs (Decidable (∀ k, k < q.length → _))

def PrefixFree (rules : List (Rule α)) : Prop :=
  ∀ q ∈ rules, ∀ r ∈ rules, q.pattern <+: r.pattern → q = r

omit [DecidableEq α] in
theorem prefixFree_of_pairwise {rules : List (Rule α)}
    (h : (rules.map Rule.pattern).Pairwise fun q r => ¬ q <+: r ∧ ¬ r <+: q) :
    PrefixFree rules := by
  have hpair := List.pairwise_map.mp h
  exact List.Pairwise.forall_of_forall_of_flip (R := fun q r => q.pattern <+: r.pattern → q = r)
    (fun _ _ _ => rfl) (hpair.imp fun hqr hp => absurd hp hqr.1)
    (hpair.imp fun hqr hp => absurd hp hqr.2)

/-- The rule `r` can be used before the rule `q`. -/
structure Rule.Before (r q : Rule α) : Prop where
  foreign : r.Foreign q.pattern
  noOverlap : NoOverlap q.pattern r.pattern

section Sequence

variable {rules : List (Rule α)} {r q : Rule α} {text : List α}

theorem firstMatch_pattern (hfree : PrefixFree rules) (hq : q ∈ rules) (rest : List α) :
    firstMatch rules (q.pattern ++ rest) = some q := by
  cases hm : firstMatch rules (q.pattern ++ rest) with
  | none => exact absurd (List.prefix_append _ _) (firstMatch_eq_none.mp hm q hq)
  | some r =>
    obtain ⟨hr, hp⟩ := firstMatch_some hm
    rcases List.prefix_or_prefix_of_prefix hp (List.prefix_append q.pattern rest) with h | h
    · rw [hfree r hr q hq h]
    · rw [hfree q hq r hr h]

theorem instantiate_append {q rest : List α}
    (h : ∀ k < q.length, firstMatch rules (q.drop k ++ rest) = none) :
    instantiate rules (q ++ rest) = q ++ instantiate rules rest := by
  induction q with
  | nil => rfl
  | cons a q ih =>
    have hfirst := h 0 (Nat.zero_lt_succ _)
    rw [List.drop_zero, List.cons_append] at hfirst
    have hrest := ih fun k hk => h (k + 1) (Nat.succ_lt_succ hk)
    rw [List.cons_append, instantiate_cons hfirst, hrest, List.cons_append]

theorem instantiate_single_append {q rest : List α} (hq : ¬ r.pattern <+: q ++ rest)
    (hover : NoOverlap q r.pattern) :
    instantiate [r] (q ++ rest) = q ++ instantiate [r] rest := by
  apply instantiate_append
  intro k hk
  rw [firstMatch_eq_none, List.forall_mem_singleton]
  rcases Nat.eq_zero_or_pos k with rfl | hpos
  · exact hq
  · intro hp
    exact hover k hk hpos
      (List.prefix_or_prefix_of_prefix (List.prefix_append (q.drop k) rest) hp)

theorem instantiate_value_append (h : ∀ q ∈ rules, r.Foreign q.pattern) (rest : List α) :
    instantiate rules (r.value ++ rest) = r.value ++ instantiate rules rest := by
  apply instantiate_append
  intro k hk
  refine firstMatch_eq_none.mpr fun q hq hp => ?_
  obtain ⟨b, t, hb⟩ := List.exists_cons_of_ne_nil q.ne_nil
  rw [List.drop_eq_getElem_cons hk, hb, List.cons_append, List.cons_prefix_cons] at hp
  exact (h q hq).2 _ (List.getElem_mem hk) (by simp [hb, hp.1])

/-- Using `r` and then the others is using them all at once. -/
theorem instantiate_instantiate (hbefore : ∀ q ∈ rules, r.Before q) (hfree : PrefixFree rules) :
    instantiate rules (instantiate [r] text) = instantiate (r :: rules) text := by
  have hforeign : ∀ q ∈ rules, r.Foreign q.pattern := fun q hq => (hbefore q hq).foreign
  induction text using induction_on (r :: rules) with
  | nil => rfl
  | matched q hq rest hm ih =>
    rw [instantiate_match hm]
    by_cases hr : r.pattern <+: q.pattern ++ rest
    · -- `r` comes first, so it is the match
      have hself : firstMatch (r :: rules) (q.pattern ++ rest) = some r :=
        List.find?_cons_of_pos (by simpa using hr)
      obtain rfl : r = q := Option.some.inj (hself.symm.trans hm)
      have hsingle : firstMatch [r] (r.pattern ++ rest) = some r :=
        List.find?_cons_of_pos (by simp)
      rw [instantiate_match hsingle, instantiate_value_append hforeign, ih]
    · have hq' : q ∈ rules := by
        rcases List.mem_cons.mp hq with rfl | hq
        · exact absurd (List.prefix_append _ _) hr
        · exact hq
      rw [instantiate_single_append hr (hbefore q hq').noOverlap,
        instantiate_match (firstMatch_pattern hfree hq' _), ih]
  | copied a text hm ih =>
    have hnone := firstMatch_eq_none.mp hm
    have hsingle : firstMatch [r] (a :: text) = none := by
      rw [firstMatch_eq_none, List.forall_mem_singleton]
      exact hnone r List.mem_cons_self
    have hrest : firstMatch rules (a :: instantiate [r] text) = none := by
      refine firstMatch_eq_none.mpr fun q hq hp => ?_
      rw [← instantiate_cons hsingle] at hp
      have hstart : q.pattern <+: a :: text :=
        prefix_of_prefix_instantiate (by simpa using hforeign q hq) hp
      exact hnone q (List.mem_cons_of_mem r hq) hstart
    rw [instantiate_cons hsingle, instantiate_cons hrest, instantiate_cons hm, ih]

/-- Rules used in turn are rules used at once. -/
theorem foldl_instantiate (hbefore : rules.Pairwise Rule.Before) (hfree : PrefixFree rules) :
    rules.foldl (fun text r => instantiate [r] text) text = instantiate rules text := by
  induction rules generalizing text with
  | nil => simp
  | cons r rules ih =>
    obtain ⟨hr, hrules⟩ := List.pairwise_cons.mp hbefore
    have hfree' : PrefixFree rules := fun q hq q' hq' =>
      hfree q (List.mem_cons_of_mem r hq) q' (List.mem_cons_of_mem r hq')
    rw [List.foldl_cons, ih hrules hfree', instantiate_instantiate hr hfree']

end Sequence

end Template
