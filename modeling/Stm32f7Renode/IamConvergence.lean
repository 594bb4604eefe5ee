import Stm32f7Renode.IamRoles

namespace Stm32f7Renode.IamRoles
open LinkStore

inductive Script
  | create
  | delete
deriving DecidableEq, Repr

def Script.calls : Script → List Call
  | .create => createIamRoles
  | .delete => deleteIamRoles

structure SetupRun.Complete (r : SetupRun) : Prop where
  identity : r.callerIdentity = true
  uncut : createIamRoles.length ≤ r.cut
  succeeds : ∀ i < createIamRoles.length, r.fails i = false

def myappAttachments : List (String × PolicyArn) :=
  createIamRoles.filterMap fun
    | .attachRolePolicy roleName policyArn => some (roleName, policyArn)
    | _ => none

/-- The policies of AWS that the set-up attaches. -/
def awsManaged : List PolicyArn :=
  [.aws "service-role/AWSIoTThingsRegistration", .aws "service-role/AWSIoTLogging",
    .aws "service-role/AWSIoTRuleActions", .aws "AWSIoTDataAccess"]

variable {s t : Account}

theorem createIamRoles_complete (s : Account) {r : SetupRun} (hr : r.Complete) :
    s.createIamRoles r = { s with iam := s.iam.run (createIamRoles.map Call.op) } := by
  -- no call changes the id of the account
  have hrun : ∀ (calls : List Call) (n : ℕ) (iam : LinkStore String PolicyArn),
      n + calls.length ≤ IamRoles.createIamRoles.length →
      (calls.zipIdx n).foldl (fun t call => if r.fails call.2 then t else
          t.after s.accountId call.1) { s with iam } =
        { s with iam := iam.run (calls.map Call.op) } := by
    intro calls
    induction calls with
    | nil => intro n iam _; rfl
    | cons call calls ih =>
      intro n iam hlen
      rw [List.length_cons] at hlen
      have hok := hr.succeeds n (by omega)
      simp only [List.zipIdx_cons, List.foldl_cons, hok, Bool.false_eq_true, if_false]
      rw [after_own { s with iam } call]
      exact ih (n + 1) _ (by omega)
  unfold Account.createIamRoles
  rw [hr.identity, List.take_of_length_le hr.uncut]
  exact hrun _ 0 s.iam (Nat.zero_add _).le

def myappResidue : Residue String PolicyArn := Residue.of (createIamRoles.map Call.op)

theorem touches (x : Script) : ∀ call ∈ x.calls, myappResidue.Touches call.op := by
  cases x <;> decide

theorem grounded : Grounded [] awsManaged (createIamRoles.map Call.op) := by
  simp [Grounded, createIamRoles, awsManaged, Call.op]

/-- The account has, besides what `s` has, only what the set-up creates. -/
structure MyappOnly (s t : Account) : Prop where
  accountId : t.accountId = s.accountId
  iam : Within s.iam myappResidue t.iam

theorem MyappOnly.after (h : MyappOnly s t) (accountId : String) {x : Script} {call : Call}
    (hcall : call ∈ x.calls) : MyappOnly s (t.after accountId call) := by
  rw [after_eq]
  split
  · exact h
  · exact ⟨h.accountId, h.iam.touch (touches x call hcall)⟩

theorem MyappOnly.deleteIamRoles (h : MyappOnly s t) : t.deleteIamRoles = s := by
  obtain ⟨accountId, iam⟩ := s
  obtain ⟨haccount, hiam⟩ := h
  rw [deleteIamRoles_eq, (hiam.removals covers.removes).eq, haccount]

theorem MyappOnly.createIamRoles (h : MyappOnly s t) (haws : ∀ p ∈ awsManaged, p ∈ s.policies)
    {r : SetupRun} (hr : r.Complete) :
    (t.createIamRoles r).roles = s.roles ∪ myappRoles.toFinset ∧
      (t.createIamRoles r).policies = s.policies ∪ (myappPolicies.map .customer).toFinset ∧
      (t.createIamRoles r).iam.links = s.iam.links ∪ myappAttachments.toFinset := by
  have hconv := h.iam.converges covers.adds haws grounded
  rw [residue_sources, residue_targets] at hconv
  rw [createIamRoles_complete t hr]
  exact hconv

end Stm32f7Renode.IamRoles
