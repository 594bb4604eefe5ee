import Stm32f7Renode.Library.LinkStore

/-!
`create-iam-roles.sh` and `delete-iam-roles.sh` against an account: its roles, its
policies and which policies are attached to which roles. Neither script looks at the
result of a call, so a failing call is skipped.
-/

namespace Stm32f7Renode.IamRoles
open LinkStore

inductive PolicyArn
  | aws (path : String)
  | customer (name : String)
deriving DecidableEq

/-- The sources are the names of the roles, the targets the policies of the account and those that
AWS manages, and the links the attachments. -/
structure Account where
  accountId : String
  iam : LinkStore String PolicyArn

def Account.roles (s : Account) : Finset String := s.iam.sources

def Account.policies (s : Account) : Finset PolicyArn := s.iam.targets

inductive Call
  | createRole (roleName : String)
  | createPolicy (policyName : String)
  | attachRolePolicy (roleName : String) (policyArn : PolicyArn)
  | detachRolePolicy (roleName : String) (policyArn : PolicyArn)
  | deleteRole (roleName : String)
  | deletePolicy (policyName : String)
deriving DecidableEq

def Call.op : Call → Op String PolicyArn
  | .createRole roleName => .addSource roleName
  | .createPolicy policyName => .addTarget (.customer policyName)
  | .attachRolePolicy roleName policyArn => .link roleName policyArn
  | .detachRolePolicy roleName policyArn => .unlink roleName policyArn
  | .deleteRole roleName => .removeSource roleName
  | .deletePolicy policyName => .removeTarget (.customer policyName)

def Call.usesAccountId : Call → Bool
  | .attachRolePolicy _ (.customer _) => true
  | .detachRolePolicy _ (.customer _) => true
  | .deletePolicy _ => true
  | _ => false

/-- A call under a value of `${ACCOUNT_ID}`; with another value than the account's, its ARN names
no policy. -/
def Account.aws (s : Account) (accountId : String) (call : Call) : Except Error Account :=
  if call.usesAccountId = true ∧ accountId ≠ s.accountId then .error .noSuch
  else (s.iam.apply call.op).map fun iam => { s with iam }

def Account.after (s : Account) (accountId : String) (call : Call) : Account :=
  match s.aws accountId call with
  | .ok t => t
  | .error _ => s

def createIamRoles : List Call :=
  [.createRole "myapp-device-advisor-service-role",
    .attachRolePolicy "myapp-device-advisor-service-role"
      (.aws "service-role/AWSIoTThingsRegistration"),
    .attachRolePolicy "myapp-device-advisor-service-role" (.aws "service-role/AWSIoTLogging"),
    .attachRolePolicy "myapp-device-advisor-service-role" (.aws "service-role/AWSIoTRuleActions"),
    .attachRolePolicy "myapp-device-advisor-service-role" (.aws "AWSIoTDataAccess"),
    .createPolicy "myapp-codebuild-build",
    .createPolicy "myapp-codebuild-integration-test",
    .createPolicy "myapp-codecommit-pull",
    .createPolicy "myapp-codepipeline-events",
    .createPolicy "myapp-codepipeline-service",
    .createPolicy "myapp-device-advisor-access",
    .createPolicy "myapp-secrets-manager",
    .createRole "myapp-codepipeline-service-role",
    .attachRolePolicy "myapp-codepipeline-service-role" (.customer "myapp-codepipeline-service"),
    .createRole "myapp-codebuild-build-role",
    .attachRolePolicy "myapp-codebuild-build-role" (.customer "myapp-codebuild-build"),
    .attachRolePolicy "myapp-codebuild-build-role" (.customer "myapp-secrets-manager"),
    .attachRolePolicy "myapp-codebuild-build-role" (.customer "myapp-codecommit-pull"),
    .createRole "myapp-codebuild-test-role",
    .attachRolePolicy "myapp-codebuild-test-role" (.customer "myapp-codebuild-integration-test"),
    .attachRolePolicy "myapp-codebuild-test-role" (.customer "myapp-secrets-manager"),
    .attachRolePolicy "myapp-codebuild-test-role" (.customer "myapp-codecommit-pull"),
    .attachRolePolicy "myapp-codebuild-test-role" (.customer "myapp-device-advisor-access")]

def deleteIamRoles : List Call :=
  [.detachRolePolicy "myapp-device-advisor-service-role"
      (.aws "service-role/AWSIoTThingsRegistration"),
    .detachRolePolicy "myapp-device-advisor-service-role" (.aws "service-role/AWSIoTLogging"),
    .detachRolePolicy "myapp-device-advisor-service-role" (.aws "service-role/AWSIoTRuleActions"),
    .detachRolePolicy "myapp-device-advisor-service-role" (.aws "AWSIoTDataAccess"),
    .deleteRole "myapp-device-advisor-service-role",
    .detachRolePolicy "myapp-codepipeline-service-role" (.customer "myapp-codepipeline-service"),
    .deleteRole "myapp-codepipeline-service-role",
    .detachRolePolicy "myapp-codebuild-build-role" (.customer "myapp-codebuild-build"),
    .detachRolePolicy "myapp-codebuild-build-role" (.customer "myapp-secrets-manager"),
    .detachRolePolicy "myapp-codebuild-build-role" (.customer "myapp-codecommit-pull"),
    .deleteRole "myapp-codebuild-build-role",
    .detachRolePolicy "myapp-codebuild-test-role" (.customer "myapp-codebuild-integration-test"),
    .detachRolePolicy "myapp-codebuild-test-role" (.customer "myapp-secrets-manager"),
    .detachRolePolicy "myapp-codebuild-test-role" (.customer "myapp-codecommit-pull"),
    .detachRolePolicy "myapp-codebuild-test-role" (.customer "myapp-device-advisor-access"),
    .deleteRole "myapp-codebuild-test-role",
    .deletePolicy "myapp-codebuild-build",
    .deletePolicy "myapp-codebuild-integration-test",
    .deletePolicy "myapp-codecommit-pull",
    .deletePolicy "myapp-codepipeline-events",
    .deletePolicy "myapp-codepipeline-service",
    .deletePolicy "myapp-device-advisor-access",
    .deletePolicy "myapp-secrets-manager"]

/-- A run of `create-iam-roles.sh` that may be cut off and have failing calls. -/
structure SetupRun where
  callerIdentity : Bool
  cut : ℕ
  /-- Whether the call at an index fails, whatever the account is like. -/
  fails : ℕ → Bool

def Account.createIamRoles (s : Account) (r : SetupRun) : Account :=
  let accountId := if r.callerIdentity then s.accountId else ""
  (IamRoles.createIamRoles.take r.cut).zipIdx.foldl
    (fun t call => if r.fails call.2 then t else t.after accountId call.1) s

/-- A complete run of `delete-iam-roles.sh`. -/
def Account.deleteIamRoles (s : Account) : Account :=
  IamRoles.deleteIamRoles.foldl (fun t call => t.after s.accountId call) s

def myappRoles : List String :=
  ["myapp-device-advisor-service-role", "myapp-codepipeline-service-role",
    "myapp-codebuild-build-role", "myapp-codebuild-test-role"]

def myappPolicies : List String :=
  ["myapp-codebuild-build", "myapp-codebuild-integration-test", "myapp-codecommit-pull",
    "myapp-codepipeline-events", "myapp-codepipeline-service", "myapp-device-advisor-access",
    "myapp-secrets-manager"]

variable {s t : Account}

theorem after_eq (s : Account) (accountId : String) (call : Call) :
    s.after accountId call =
      if call.usesAccountId = true ∧ accountId ≠ s.accountId then s
      else { s with iam := s.iam.after call.op } := by
  unfold Account.after Account.aws LinkStore.after
  by_cases h : call.usesAccountId = true ∧ accountId ≠ s.accountId
  · rw [if_pos h, if_pos h]
  · rw [if_neg h, if_neg h]
    cases s.iam.apply call.op <;> rfl

theorem after_own (s : Account) (call : Call) :
    s.after s.accountId call = { s with iam := s.iam.after call.op } := by
  rw [after_eq, if_neg fun h => h.2 rfl]

theorem deleteIamRoles_eq (s : Account) :
    s.deleteIamRoles = { s with iam := s.iam.run (deleteIamRoles.map Call.op) } := by
  -- no call changes the id of the account
  have hrun : ∀ (calls : List Call) (iam : LinkStore String PolicyArn),
      calls.foldl (fun t call => t.after s.accountId call) { s with iam } =
        { s with iam := iam.run (calls.map Call.op) } := by
    intro calls
    induction calls with
    | nil => intro iam; rfl
    | cons call calls ih =>
      intro iam
      rw [List.foldl_cons, after_own { s with iam } call]
      exact ih _
  exact hrun _ s.iam

/-- The account after some calls of the set-up, each any number of times and in any order. -/
def PartlySetUp (s t : Account) : Prop :=
  ∃ ops : List (Op String PolicyArn), (∀ op ∈ ops, op ∈ createIamRoles.map Call.op) ∧
    t = { s with iam := s.iam.run ops }

theorem PartlySetUp.after (h : PartlySetUp s t) (accountId : String) {call : Call}
    (hcall : call ∈ createIamRoles) : PartlySetUp s (t.after accountId call) := by
  obtain ⟨ops, hops, rfl⟩ := h
  rw [after_eq]
  split
  · -- the ARN names no policy of the account
    exact ⟨ops, hops, rfl⟩
  · refine ⟨ops ++ [call.op], ?_, ?_⟩
    · simpa only [List.forall_mem_append, List.forall_mem_singleton] using
        ⟨hops, List.mem_map_of_mem hcall⟩
    · simp only [LinkStore.run, List.foldl_append, List.foldl_cons, List.foldl_nil]

theorem PartlySetUp.createIamRoles (h : PartlySetUp s t) (r : SetupRun) :
    PartlySetUp s (t.createIamRoles r) := by
  refine List.foldlRecOn _ _ h fun u hu call hcall => ?_
  by_cases hf : r.fails call.2 = true
  · simpa only [hf, if_true] using hu
  · simp only [hf]
    exact hu.after _ (List.mem_of_mem_take (List.fst_mem_of_mem_zipIdx hcall))

theorem partlySetUp_runs (s : Account) (runs : List SetupRun) :
    PartlySetUp s (runs.foldl Account.createIamRoles s) := by
  refine List.foldlRecOn _ _ ⟨[], by simp, rfl⟩ fun t ht r _ => ?_
  exact ht.createIamRoles r

theorem covers : Covers (createIamRoles.map Call.op) (deleteIamRoles.map Call.op) where
  adds := by decide
  removes := by decide

theorem residue_sources : (Residue.of (createIamRoles.map Call.op)).sources = myappRoles := by
  decide

theorem residue_targets :
    (Residue.of (createIamRoles.map Call.op)).targets = myappPolicies.map .customer := by
  decide

/-- Whatever came of any number of set-ups, one teardown restores the account. -/
theorem deleteIamRoles_restores (s : Account) (hroles : ∀ r ∈ myappRoles, r ∉ s.roles)
    (hpolicies : ∀ p ∈ myappPolicies, .customer p ∉ s.policies) (runs : List SetupRun) :
    (runs.foldl Account.createIamRoles s).deleteIamRoles = s := by
  obtain ⟨ops, hops, ht⟩ := partlySetUp_runs s runs
  have hiam : (s.iam.run ops).run (deleteIamRoles.map Call.op) = s.iam := by
    apply covers.restores _ _ hops
    · rwa [residue_sources]
    · rwa [residue_targets, List.forall_mem_map]
  rw [ht, deleteIamRoles_eq, hiam]

def busyAccount : Account where
  accountId := "123456789012"
  iam := {
    sources := {"backup-role"}
    targets := {.customer "backup", .aws "AWSIoTDataAccess", .aws "service-role/AWSIoTLogging"}
    links := {("backup-role", .customer "backup"), ("backup-role", .aws "AWSIoTDataAccess")}
    linked := by decide }

/-- One run is cut off early, one cannot tell the account, and one fails to create a policy. -/
def interruptedRuns : List SetupRun :=
  [{ callerIdentity := true, cut := 9, fails := fun i => i = 1 },
    { callerIdentity := false, cut := 23, fails := fun i => i = 10 },
    { callerIdentity := true, cut := 23, fails := fun i => i = 10 }]

theorem deleteIamRoles_restores_interrupted :
    ("myapp-codebuild-build-role", .customer "myapp-codecommit-pull") ∈
        (interruptedRuns.foldl Account.createIamRoles busyAccount).iam.links ∧
      (interruptedRuns.foldl Account.createIamRoles busyAccount).deleteIamRoles = busyAccount :=
  ⟨by decide +kernel, deleteIamRoles_restores busyAccount (by decide) (by decide) interruptedRuns⟩

end Stm32f7Renode.IamRoles
