import Stm32f7Renode.Library.Shell
import Stm32f7Renode.Library.Template

namespace Stm32f7Renode.PolicyDocument
open WireText Template Shell

structure Substitution where
  delimiter : Byte
  rule : Rule Byte

/-- No character of the value ends the command or has a meaning in it: not the delimiter, an
ampersand, a backslash or a newline. -/
def Substitution.Literal (c : Substitution) : Prop :=
  ∀ b ∈ c.rule.value, b ≠ c.delimiter ∧ b ≠ 0x26 ∧ b ≠ 0x5c ∧ b ≠ newline

instance (c : Substitution) : Decidable c.Literal :=
  inferInstanceAs (Decidable (∀ b ∈ c.rule.value, _))

/-- The output for a text, if all commands are literal. No pattern has a newline, so it makes no
difference that `sed` reads line by line. -/
def sed (commands : List Substitution) (text : List Byte) : Option (List Byte) :=
  if ∀ c ∈ commands, c.Literal then
    some ((commands.map Substitution.rule).foldl (fun text r => instantiate [r] text) text)
  else none

def accountIdPlaceholder : List Byte := ascii "ACCOUNT_ID"

def regionPlaceholder : List Byte := ascii "REGION"

def daRolePlaceholder : List Byte := ascii "DA_ROLE"

def accountIdRule (accountId : List Byte) : Rule Byte :=
  ⟨accountIdPlaceholder, accountId, by decide⟩

def regionRule (region : List Byte) : Rule Byte := ⟨regionPlaceholder, region, by decide⟩

def daRoleRule (daRole : List Byte) : Rule Byte := ⟨daRolePlaceholder, daRole, by decide⟩

/-- The document that `create_managed_policy` makes of its template; `daRole` is its third
argument, which is empty when there is none. -/
def createManagedPolicy (accountId region daRole template : List Byte) : Option (List Byte) :=
  sed [⟨0x2f, accountIdRule accountId⟩, ⟨0x2f, regionRule region⟩, ⟨0x2c, daRoleRule daRole⟩]
    template

def createPolicy (accountId region policyFile : List Byte) : Option (List Byte) :=
  sed [⟨0x2f, accountIdRule accountId⟩, ⟨0x2f, regionRule region⟩] policyFile

example : createManagedPolicy (ascii "12") (ascii "us-west-2") []
    (ascii "logs:REGION:ACCOUNT_ID:codepipeline-REGION-*") =
      some (ascii "logs:us-west-2:12:codepipeline-us-west-2-*") := by
  decide +kernel

/-- The characters by which a JSON text is read: quotes and backslashes, brackets, braces,
commas and blanks. -/
def isStructural (b : Byte) : Bool := (ascii "\"\\[]\x7b\x7d, \t\n\r").contains b

/-- The template with all placeholders filled in at once, none left, and its structure as it
was. -/
structure Filled (rules : List (Rule Byte)) (template document : List Byte) : Prop where
  eq : document = instantiate rules template
  complete : ∀ p ∈ rules.map Rule.pattern, ¬ p <:+: document
  structural : document.filter isStructural = template.filter isStructural

def isArnByte (b : Byte) : Bool :=
  isDigit b || (0x61 ≤ b && b ≤ 0x7a) || b == 0x3a || b == 0x2f || b == 0x2d

/-- An account number, the name of a region and the ARN of the role, which may be missing. -/
structure Inputs (accountId region daRole : List Byte) : Prop where
  accountId_ne : accountId ≠ []
  accountId_isDigit : ∀ b ∈ accountId, isDigit b = true
  region_ne : region ≠ []
  region_isArnByte : ∀ b ∈ region, isArnByte b = true
  region_slash : 0x2f ∉ region
  daRole_isArnByte : ∀ b ∈ daRole, isArnByte b = true

def isPlaceholderByte (b : Byte) : Bool :=
  (accountIdPlaceholder ++ regionPlaceholder ++ daRolePlaceholder).contains b

theorem isArnByte_of_isDigit {b : Byte} (h : isDigit b = true) : isArnByte b = true ∧ b ≠ 0x2f := by
  revert b
  apply forall_byte
  decide +kernel

theorem arnByte_facts {b : Byte} (h : isArnByte b = true) :
    (b ≠ 0x2c ∧ b ≠ 0x26 ∧ b ≠ 0x5c ∧ b ≠ newline) ∧ isPlaceholderByte b = false ∧
      isStructural b = false := by
  revert b
  apply forall_byte
  decide +kernel

section Rules

variable {accountId region daRole : List Byte}

theorem foreign_of_arn {r : Rule Byte} {p : List Byte} (hne : r.value ≠ [])
    (hr : ∀ b ∈ r.value, isArnByte b = true) (hp : p.all isPlaceholderByte = true) :
    r.Foreign p := by
  refine ⟨hne, fun b hb hbp => ?_⟩
  have hfalse := (arnByte_facts (hr b hb)).2.1
  exact absurd (hfalse.symm.trans (List.all_eq_true.mp hp b hbp)) (by simp)

theorem Inputs.accountId_isArnByte (h : Inputs accountId region daRole) :
    ∀ b ∈ accountId, isArnByte b = true :=
  fun b hb => (isArnByte_of_isDigit (h.accountId_isDigit b hb)).1

theorem Inputs.foreign (h : Inputs accountId region daRole) {p : List Byte}
    (hp : p.all isPlaceholderByte = true) :
    (accountIdRule accountId).Foreign p ∧ (regionRule region).Foreign p :=
  ⟨foreign_of_arn h.accountId_ne h.accountId_isArnByte hp,
    foreign_of_arn h.region_ne h.region_isArnByte hp⟩

theorem noOverlap_placeholders :
    NoOverlap regionPlaceholder accountIdPlaceholder ∧
      NoOverlap daRolePlaceholder accountIdPlaceholder ∧
        NoOverlap daRolePlaceholder regionPlaceholder := by
  decide

theorem Inputs.pairwise (h : Inputs accountId region daRole) :
    [accountIdRule accountId, regionRule region, daRoleRule daRole].Pairwise Rule.Before := by
  have hregion := h.foreign (p := regionPlaceholder) (by decide)
  have hrole := h.foreign (p := daRolePlaceholder) (by decide)
  obtain ⟨hover1, hover2, hover3⟩ := noOverlap_placeholders
  rw [List.pairwise_cons, List.pairwise_cons]
  simp only [List.forall_mem_cons]
  exact ⟨⟨⟨hregion.1, hover1⟩, ⟨hrole.1, hover2⟩, by simp⟩, ⟨⟨hrole.2, hover3⟩, by simp⟩, by simp⟩

theorem prefixFree_three :
    PrefixFree [accountIdRule accountId, regionRule region, daRoleRule daRole] := by
  have h : [accountIdPlaceholder, regionPlaceholder, daRolePlaceholder].Pairwise
      fun q r => ¬ q <+: r ∧ ¬ r <+: q := by decide
  exact prefixFree_of_pairwise h

theorem prefixFree_two : PrefixFree [accountIdRule accountId, regionRule region] := by
  have h : [accountIdPlaceholder, regionPlaceholder].Pairwise
      fun q r => ¬ q <+: r ∧ ¬ r <+: q := by decide
  exact prefixFree_of_pairwise h

theorem Inputs.literal (h : Inputs accountId region daRole) :
    ∀ c ∈ [(⟨0x2f, accountIdRule accountId⟩ : Substitution), ⟨0x2f, regionRule region⟩,
      ⟨0x2c, daRoleRule daRole⟩], c.Literal := by
  simp only [List.forall_mem_cons]
  refine ⟨fun b hb => ?_, fun b hb => ?_, fun b hb => ?_, by simp⟩
  · have hdigit := isArnByte_of_isDigit (h.accountId_isDigit b hb)
    exact ⟨hdigit.2, (arnByte_facts hdigit.1).1.2⟩
  · have hslash : b ≠ 0x2f := fun he => h.region_slash (he ▸ hb)
    exact ⟨hslash, (arnByte_facts (h.region_isArnByte b hb)).1.2⟩
  · exact (arnByte_facts (h.daRole_isArnByte b hb)).1

/-- Both scripts use their rules in turn, which is using them at once. -/
theorem Inputs.createManagedPolicy_eq (h : Inputs accountId region daRole)
    (template : List Byte) : createManagedPolicy accountId region daRole template =
      some (instantiate [accountIdRule accountId, regionRule region, daRoleRule daRole]
        template) := by
  rw [createManagedPolicy, sed, if_pos h.literal]
  exact congrArg some (foldl_instantiate h.pairwise prefixFree_three)

theorem Inputs.createPolicy_eq (h : Inputs accountId region daRole) (policyFile : List Byte) :
    createPolicy accountId region policyFile =
      some (instantiate [accountIdRule accountId, regionRule region] policyFile) := by
  have hliteral := h.literal
  simp only [List.forall_mem_cons] at hliteral
  have htwo : ∀ c ∈ [(⟨0x2f, accountIdRule accountId⟩ : Substitution),
      ⟨0x2f, regionRule region⟩], c.Literal := by
    simp only [List.forall_mem_cons]
    exact ⟨hliteral.1, hliteral.2.1, by simp⟩
  have hpair : [accountIdRule accountId, regionRule region].Pairwise Rule.Before :=
    h.pairwise.sublist (by simp)
  rw [createPolicy, sed, if_pos htwo]
  exact congrArg some (foldl_instantiate hpair prefixFree_two)

theorem placeholder_facts :
    ∀ p ∈ [accountIdPlaceholder, regionPlaceholder, daRolePlaceholder],
      p.all isPlaceholderByte = true ∧ p.all (!isStructural ·) = true := by
  decide

theorem pattern_facts : ∀ r ∈ [accountIdRule accountId, regionRule region, daRoleRule daRole],
    r.pattern.all isPlaceholderByte = true ∧ ∀ b ∈ r.pattern, isStructural b = false := by
  intro r hr
  obtain ⟨hplaceholder, hstructural⟩ :=
    placeholder_facts r.pattern (List.mem_map_of_mem (f := Rule.pattern) hr)
  exact ⟨hplaceholder, fun b hb => by simpa using List.all_eq_true.mp hstructural b hb⟩

theorem mem_three {r : Rule Byte} (hr : r ∈ [accountIdRule accountId, regionRule region]) :
    r ∈ [accountIdRule accountId, regionRule region, daRoleRule daRole] :=
  (List.sublist_append_left [_, _] [daRoleRule daRole]).subset hr

theorem Inputs.value_arn (h : Inputs accountId region daRole) :
    ∀ r ∈ [accountIdRule accountId, regionRule region, daRoleRule daRole],
      ∀ b ∈ r.value, isArnByte b = true := by
  simp only [List.forall_mem_cons]
  exact ⟨h.accountId_isArnByte, h.region_isArnByte, h.daRole_isArnByte, by simp⟩

theorem Inputs.structural (h : Inputs accountId region daRole) {rules : List (Rule Byte)}
    (hrules : rules ⊆ [accountIdRule accountId, regionRule region, daRoleRule daRole])
    (template : List Byte) :
    (instantiate rules template).filter isStructural = template.filter isStructural :=
  filter_instantiate fun r hr => ⟨(pattern_facts r (hrules hr)).2, fun b hb =>
    (arnByte_facts (h.value_arn r (hrules hr) b hb)).2.2⟩

theorem Inputs.filled_two (h : Inputs accountId region daRole) (template : List Byte) :
    Filled [accountIdRule accountId, regionRule region] template
      (instantiate [accountIdRule accountId, regionRule region] template) where
  eq := rfl
  complete p hp := by
    obtain ⟨q, hq, rfl⟩ := List.mem_map.mp hp
    refine not_infix_instantiate (fun r hr q hq => ?_) hq
    have hthree : q ∈ [accountIdRule accountId, regionRule region, daRoleRule daRole] :=
      mem_three hq
    have hforeign := h.foreign (pattern_facts q hthree).1
    rcases List.mem_cons.mp hr with rfl | hr
    · exact hforeign.1
    · exact List.mem_singleton.mp hr ▸ hforeign.2
  structural := h.structural (fun _ hr => mem_three hr) template

theorem Inputs.filled_three (h : Inputs accountId region daRole) {template : List Byte}
    (hrole : daRole ≠ [] ∨ ¬ daRolePlaceholder <:+: template) :
    Filled [accountIdRule accountId, regionRule region, daRoleRule daRole] template
      (instantiate [accountIdRule accountId, regionRule region, daRoleRule daRole] template) where
  eq := rfl
  complete p hp := by
    by_cases hne : daRole = []
    -- an empty role leaves its rule unused, and the other two do not bring the placeholder in
    · have hnot := hrole.resolve_left fun hn => hn hne
      have htwo : instantiate [accountIdRule accountId, regionRule region, daRoleRule daRole]
          template = instantiate [accountIdRule accountId, regionRule region] template := by
        change instantiate ([accountIdRule accountId, regionRule region] ++
          [daRoleRule daRole]) template = _
        exact instantiate_append_rule hnot
      rw [htwo]
      have hforeign := h.foreign (placeholder_facts daRolePlaceholder (by decide)).1
      simp only [List.map_cons, List.map_nil, List.mem_cons, List.not_mem_nil, or_false] at hp
      rcases hp with rfl | rfl | rfl
      · exact (h.filled_two template).complete _ (by simp)
      · exact (h.filled_two template).complete _ (by simp)
      · refine not_infix_of_foreign (fun r hr => ?_) (daRoleRule daRole).ne_nil hnot
        rcases List.mem_cons.mp hr with rfl | hr
        · exact hforeign.1
        · exact List.mem_singleton.mp hr ▸ hforeign.2
    · obtain ⟨q, hq, rfl⟩ := List.mem_map.mp hp
      refine not_infix_instantiate (fun r hr q hq => ?_) hq
      have hvalue : r.value ≠ [] := by
        revert r
        simp only [List.forall_mem_cons]
        exact ⟨h.accountId_ne, h.region_ne, hne, by simp⟩
      exact foreign_of_arn hvalue (h.value_arn r hr) (pattern_facts q hq).1
  structural := h.structural (List.Subset.refl _) template

end Rules

/-- Every document that the scripts submit is its template with all placeholders filled in at
once, whatever the template: no value is taken for a placeholder, none is left, and the text
keeps its quotes, brackets, braces, commas and blanks. -/
theorem documents_filled {accountId region daRole : List Byte} (h : Inputs accountId region daRole)
    (template : List Byte) :
    (daRole ≠ [] ∨ ¬ daRolePlaceholder <:+: template →
      ∃ document, createManagedPolicy accountId region daRole template = some document ∧
        Filled [accountIdRule accountId, regionRule region, daRoleRule daRole] template document) ∧
    ∃ document, createPolicy accountId region template = some document ∧
      Filled [accountIdRule accountId, regionRule region] template document :=
  ⟨fun hrole => ⟨_, h.createManagedPolicy_eq template, h.filled_three hrole⟩,
    _, h.createPolicy_eq template, h.filled_two template⟩

/-- A role whose ARN has the account number in it. -/
theorem documents_filled_passRole :
    ∃ document, createManagedPolicy (ascii "123456789012") (ascii "us-west-2")
        (ascii "arn:aws:iam::123456789012:role/myapp-device-advisor-service-role")
        (ascii "\x7b\"Resource\": [\"DA_ROLE\", \"arn:aws:iot:REGION:ACCOUNT_ID:*\"]\x7d") =
          some document ∧
      ∀ p ∈ [accountIdPlaceholder, regionPlaceholder, daRolePlaceholder], ¬ p <:+: document := by
  have h : Inputs (ascii "123456789012") (ascii "us-west-2")
      (ascii "arn:aws:iam::123456789012:role/myapp-device-advisor-service-role") :=
    ⟨by decide, List.all_eq_true.mp (by decide), by decide, List.all_eq_true.mp (by decide),
      by decide, List.all_eq_true.mp (by decide)⟩
  obtain ⟨document, hdocument, hfilled⟩ := (documents_filled h _).1 (.inl (by decide))
  exact ⟨document, hdocument, hfilled.complete⟩

end Stm32f7Renode.PolicyDocument
