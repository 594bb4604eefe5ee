import Mathlib.Data.List.AList
import Stm32f7Renode.Credential

namespace Stm32f7Renode.Credential
open WireText Shell

abbrev Objects := AList fun _ : List Byte => Arn

structure Registry where
  things : Objects
  policies : Objects

/-- The ARNs that new objects are given. -/
structure Service where
  thingArn : List Byte → Arn
  policyArn : List Byte → Arn

def entriesOf (objects : Objects) : List Entry := objects.entries.map fun e => (e.1, e.2)

/-- A name that is taken gives the ARN of the thing there is. -/
def Registry.createThing (svc : Service) (g : Registry) (name : List Byte) : Arn × Registry :=
  match g.things.lookup name with
  | some arn => (arn, g)
  | none => (svc.thingArn name, { g with things := g.things.insert name (svc.thingArn name) })

/-- A name that is taken makes the call fail. -/
def Registry.createPolicy (svc : Service) (g : Registry) (name : List Byte) :
    Option Arn × Registry :=
  match g.policies.lookup name with
  | some _ => (none, g)
  | none =>
    (some (svc.policyArn name),
      { g with policies := g.policies.insert name (svc.policyArn name) })

/-- What the calls return that concern things and policies; the other calls return as in `r`. -/
def Registry.replies (svc : Service) (g : Registry) (o : Options) (r : Replies) : Replies :=
  { r with
    thingArn := (g.createThing svc o.thingName.bytes).1
    createThing := true
    listThings := some (entriesOf g.things)
    listThingsAgain := some (entriesOf g.things)
    listPolicies := some (entriesOf g.policies)
    listPoliciesAgain := some (entriesOf g.policies)
    createPolicy := (g.createPolicy svc o.policyName.bytes).1 }

section Resolution

variable (svc : Service) (o : Options) (r : Replies) (g : Registry)

def resolveThingIn : Except (List Byte) (List Byte) × Registry :=
  let replies := g.replies svc o r
  let found := !o.force && thingExists o replies.listThings
  (resolveThing o replies, if found then g else (g.createThing svc o.thingName.bytes).2)

def resolvePolicyIn : Except (List Byte) (List Byte) × Registry :=
  let replies := g.replies svc o r
  let found := !o.force && policyExists o replies.listPolicies
  (resolvePolicy o replies, if found then g else (g.createPolicy svc o.policyName.bytes).2)

def resolveIn : Except (List Byte) (List Byte × List Byte) × Registry :=
  match resolveThingIn svc o r g with
  | (.error message, g) => (.error message, g)
  | (.ok thingArn, g) =>
    match resolvePolicyIn svc o r g with
    | (.error message, g) => (.error message, g)
    | (.ok policyArn, g) => (.ok (thingArn, policyArn), g)

end Resolution

/-- With `-F` and without, the registry ends up the same, and both ARNs are those it then holds. -/
def PathsAgree (svc : Service) (o : Options) (r : Replies) (g : Registry) : Prop :=
  ∃ g' : Registry, ∃ thingArn policyArn : Arn,
    g'.things.lookup o.thingName.bytes = some thingArn ∧
    g'.policies.lookup o.policyName.bytes = some policyArn ∧
    ∀ force, resolveIn svc { o with force } r g =
      (.ok (thingArn.word.bytes, policyArn.word.bytes), g')

variable {svc : Service} {o : Options} {r : Replies} {g : Registry}

theorem listed_entriesOf (name : List Byte) (objects : Objects) :
    listed name (some (entriesOf objects)) = true ↔ name ∈ objects := by
  rw [AList.mem_keys]
  simp [listed, entriesOf, AList.keys, List.keys]

theorem looksThingUp_iff :
    looksThingUp o (g.replies svc o r) = true ↔ o.force = false ∧ o.thingName.bytes ∈ g.things := by
  rw [looksThingUp, Bool.and_eq_true, Bool.not_eq_true', ← listed_entriesOf]
  rfl

theorem policyExists_iff :
    policyExists o (some (entriesOf g.policies)) = true ↔ o.policyName.bytes ∈ g.policies := by
  rw [policyExists_eq, listed_entriesOf]

theorem createThing_of_absent {name : List Byte} (h : name ∉ g.things) :
    g.createThing svc name =
      (svc.thingArn name, { g with things := g.things.insert name (svc.thingArn name) }) := by
  unfold Registry.createThing
  rw [AList.lookup_eq_none.mpr h]

theorem createPolicy_of_absent {name : List Byte} (h : name ∉ g.policies) :
    g.createPolicy svc name = (some (svc.policyArn name),
      { g with policies := g.policies.insert name (svc.policyArn name) }) := by
  unfold Registry.createPolicy
  rw [AList.lookup_eq_none.mpr h]

theorem createPolicy_of_present {name : List Byte} (h : name ∈ g.policies) :
    g.createPolicy svc name = (none, g) := by
  obtain ⟨arn, ha⟩ := Option.isSome_iff_exists.mp (AList.lookup_isSome.mpr h)
  unfold Registry.createPolicy
  rw [ha]

theorem createThing_policies (name : List Byte) :
    (g.createThing svc name).2.policies = g.policies := by
  unfold Registry.createThing
  cases g.things.lookup name <;> rfl

theorem resolveThingIn_eq (svc : Service) (o : Options) (r : Replies) (g : Registry) :
    resolveThingIn svc o r g =
      if looksThingUp o (g.replies svc o r) then (.ok (ascii "None"), g)
      else (.ok (g.createThing svc o.thingName.bytes).1.word.bytes,
        (g.createThing svc o.thingName.bytes).2) := by
  have hfound : (!o.force && thingExists o (g.replies svc o r).listThings) =
      looksThingUp o (g.replies svc o r) := by
    rw [thingExists_eq, looksThingUp]
  have hresolved : thingResolved o (g.replies svc o r) = true := by
    unfold thingResolved
    exact ite_self true
  simp only [resolveThingIn, resolveThing_eq o _ hresolved, hfound]
  by_cases h : looksThingUp o (g.replies svc o r) = true
  · rw [if_pos h, if_pos h, if_pos h]
  · rw [if_neg h, if_neg h, if_neg h]
    rfl

/-- A thing that is there is looked up under the key of the policies. -/
theorem resolveThingIn_found (hforce : o.force = false) (h : o.thingName.bytes ∈ g.things) :
    resolveThingIn svc o r g = (.ok (ascii "None"), g) := by
  rw [resolveThingIn_eq, if_pos (looksThingUp_iff.mpr ⟨hforce, h⟩)]

theorem resolveThingIn_created (h : o.force = true ∨ o.thingName.bytes ∉ g.things) :
    resolveThingIn svc o r g = (.ok (g.createThing svc o.thingName.bytes).1.word.bytes,
      (g.createThing svc o.thingName.bytes).2) := by
  have hlooks : ¬ looksThingUp o (g.replies svc o r) = true := by
    rw [looksThingUp_iff]
    rintro ⟨hforce, hmem⟩
    rcases h with h | h
    · rw [h] at hforce
      cases hforce
    · exact h hmem
  rw [resolveThingIn_eq, if_neg hlooks]

theorem resolvePolicyIn_created (svc : Service) (r : Replies)
    (h : o.policyName.bytes ∉ g.policies) :
    resolvePolicyIn svc o r g = (.ok (svc.policyArn o.policyName.bytes).word.bytes,
      { g with
        policies := g.policies.insert o.policyName.bytes (svc.policyArn o.policyName.bytes) }) := by
  have hexists : ¬ policyExists o (g.replies svc o r).listPolicies = true :=
    fun hp => h (policyExists_iff.mp hp)
  have harn : Wordy (svc.policyArn o.policyName.bytes).word.bytes := Token.mem_ok _
  have hcreate : (g.replies svc o r).createPolicy = some (svc.policyArn o.policyName.bytes) := by
    simp only [Registry.replies, createPolicy_of_absent h]
  simp [resolvePolicyIn, resolvePolicy, createPolicy, hexists, hcreate, harn.output,
    createPolicy_of_absent h]

/-- A policy that is there is taken to be reused, without its ARN. -/
theorem resolvePolicyIn_forced (hforce : o.force = true) (h : o.policyName.bytes ∈ g.policies) :
    resolvePolicyIn svc o r g = (.ok [], g) := by
  have hcreate : (g.replies svc o r).createPolicy = none := by
    simp only [Registry.replies, createPolicy_of_present h]
  simp [resolvePolicyIn, resolvePolicy, createPolicy, hforce, hcreate, createPolicy_of_present h]

theorem resolveIn_created (ht : o.thingName.bytes ∉ g.things)
    (hp : o.policyName.bytes ∉ g.policies) :
    resolveIn svc o r g = (.ok ((svc.thingArn o.thingName.bytes).word.bytes,
        (svc.policyArn o.policyName.bytes).word.bytes),
      ⟨g.things.insert o.thingName.bytes (svc.thingArn o.thingName.bytes),
        g.policies.insert o.policyName.bytes (svc.policyArn o.policyName.bytes)⟩) := by
  have hpolicy := resolvePolicyIn_created svc r
    (g := ⟨g.things.insert o.thingName.bytes (svc.thingArn o.thingName.bytes), g.policies⟩) hp
  simp only [resolveIn, resolveThingIn_created (.inr ht), createThing_of_absent ht, hpolicy]

theorem not_pathsAgree_of_thing (h : o.thingName.bytes ∈ g.things) : ¬ PathsAgree svc o r g := by
  rintro ⟨g', thingArn, policyArn, -, -, hall⟩
  have hchecked := hall false
  simp only [resolveIn, resolveThingIn_found (o := { o with force := false }) rfl h] at hchecked
  -- the path exits in the policy step, or ends with `None` for the ARN
  split at hchecked
  · cases (Prod.ext_iff.mp hchecked).1
  · have hok := Except.ok.inj (Prod.ext_iff.mp hchecked).1
    exact none_ne_arn thingArn (Prod.ext_iff.mp hok).1

theorem not_pathsAgree_of_policy (h : o.policyName.bytes ∈ g.policies) :
    ¬ PathsAgree svc o r g := by
  rintro ⟨g', thingArn, policyArn, -, -, hall⟩
  have hforced := hall true
  -- the thing step before it leaves the policies alone
  have hp : o.policyName.bytes ∈ (g.createThing svc o.thingName.bytes).2.policies := by
    rwa [createThing_policies]
  simp only [resolveIn, resolveThingIn_created (o := { o with force := true }) (.inl rfl),
    resolvePolicyIn_forced (o := { o with force := true }) rfl hp] at hforced
  have hok := Except.ok.inj (Prod.ext_iff.mp hforced).1
  exact policyArn.word.ne_nil (Prod.ext_iff.mp hok).2.symm

/-- The two paths agree if and only if neither the thing nor the policy is there yet. -/
theorem pathsAgree_iff (svc : Service) (o : Options) (r : Replies) (g : Registry) :
    PathsAgree svc o r g ↔ o.thingName.bytes ∉ g.things ∧ o.policyName.bytes ∉ g.policies := by
  constructor
  · intro h
    exact ⟨fun ht => not_pathsAgree_of_thing ht h, fun hp => not_pathsAgree_of_policy hp h⟩
  · rintro ⟨ht, hp⟩
    refine ⟨⟨g.things.insert o.thingName.bytes (svc.thingArn o.thingName.bytes),
      g.policies.insert o.policyName.bytes (svc.policyArn o.policyName.bytes)⟩,
      _, _, AList.lookup_insert _, AList.lookup_insert _, fun force => ?_⟩
    exact resolveIn_created (o := { o with force }) ht hp

def knownThing : Registry where
  things := AList.singleton (ascii "t") someArn
  policies := ∅

theorem known_thing_paths_differ : ¬ ∀ svc o r g, PathsAgree svc o r g := by
  intro h
  have hknown : forcedOptions.thingName.bytes ∈ knownThing.things := by decide
  exact not_pathsAgree_of_thing hknown
    (h ⟨fun _ => someArn, fun _ => someArn⟩ forcedOptions failedKeys knownThing)

end Stm32f7Renode.Credential
