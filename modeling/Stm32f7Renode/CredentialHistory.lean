import Stm32f7Renode.CredentialExports
import Stm32f7Renode.Library.TransitionSystem

namespace Stm32f7Renode.Credential
open WireText Shell

/-- A run, and whether the call that stores its secret succeeds. -/
structure Invocation where
  options : Options
  replies : Replies
  stdin : List Byte
  stores : Bool

/-- A secret, with the suite id of the run that stored it and the certificate it was issued. -/
structure Stored where
  secretString : List Byte
  suiteId : List Byte
  issued : Option Issued

structure Site where
  files : Files
  certificates : List Issued
  secrets : Word → Option Stored

def Site.store (s : Site) (x : Invocation) : Outcome → Word → Option Stored
  | .secret _ secretName secretString _ =>
    if x.stores then Function.update s.secrets secretName
      (some ⟨secretString, x.options.suiteId, x.replies.createKeysAndCertificate⟩)
    else s.secrets
  | _ => s.secrets

def Site.run (s : Site) (x : Invocation) : Site where
  files := (createCertificateDevmode x.options x.replies s.files).2
  certificates := s.certificates ++ x.replies.createKeysAndCertificate.toList
  secrets := s.store x (createIotCredential x.options x.replies s.files x.stdin)

@[simp]
theorem Site.run_files (s : Site) (x : Invocation) :
    (s.run x).files = (createCertificateDevmode x.options x.replies s.files).2 := rfl

@[simp]
theorem Site.run_certificates (s : Site) (x : Invocation) :
    (s.run x).certificates =
      s.certificates ++ x.replies.createKeysAndCertificate.toList := rfl

/-- The two files hold the certificate and the key of one issued certificate, or there are none. -/
def Paired (s : Site) (o : Options) : Prop :=
  s.files o.certificateFile = none ∧ s.files o.privkeyFile = none ∨
    ∃ i ∈ s.certificates, s.files o.certificateFile = some i.certificatePem ∧
      s.files o.privkeyFile = some i.privateKey

/-- A secret that its suite id leaves readable is that of an issued certificate. If its run has
issued none, what the build takes for the certificate is empty or the private key of one that was
issued before. -/
def Stored.Backed (certificates : List Issued) (x : Stored) : Prop :=
  suiteFits x.suiteId = true →
  match x.issued with
  | some i => i ∈ certificates ∧
      FlatJson.field (ascii "certificate_arn") x.secretString = some i.certificateArn.word.bytes ∧
      (FlatJson.field (ascii "certificate") x.secretString).bind buildDecode =
        some i.certificatePem ∧
      (FlatJson.field (ascii "privatekey") x.secretString).bind buildDecode = some i.privateKey
  | none =>
    (FlatJson.field (ascii "certificate") x.secretString).bind buildDecode = some [] ∨
      ∃ i ∈ certificates,
        (FlatJson.field (ascii "certificate") x.secretString).bind buildDecode = some i.privateKey

structure Consistent (s : Site) (history : List Invocation) : Prop where
  certificates : s.certificates =
    history.filterMap fun x => x.replies.createKeysAndCertificate
  paired : ∀ o, Paired s o
  backed : ∀ secretName x, s.secrets secretName = some x → x.Backed s.certificates

section Files

variable {o o' : Options} {r : Replies} {files : Files}

theorem file_reverse (o : Options) {suffix : List Byte} (h : 8 ≤ suffix.length) :
    (o.file suffix).reverse.take 8 = suffix.reverse.take 8 := by
  rw [Options.file, List.reverse_append, List.take_append_of_le_length (by simpa using h)]

theorem file_ne {s t : List Byte} (hs : 8 ≤ s.length) (ht : 8 ≤ t.length)
    (h : s.reverse.take 8 ≠ t.reverse.take 8) : o.file s ≠ o'.file t := by
  intro he
  have hreverse := congrArg (fun text => text.reverse.take 8) he
  rw [file_reverse o hs, file_reverse o' ht] at hreverse
  exact h hreverse

theorem createCertificateDevmode_files (o' : Options) :
    ((createCertificateDevmode o r files).2 o'.certificateFile = files o'.certificateFile ∧
      (createCertificateDevmode o r files).2 o'.privkeyFile = files o'.privkeyFile) ∨
    ∃ i, r.createKeysAndCertificate = some i ∧
      (createCertificateDevmode o r files).2 o'.certificateFile = some i.certificatePem ∧
      (createCertificateDevmode o r files).2 o'.privkeyFile = some i.privateKey := by
  cases hi : r.createKeysAndCertificate with
  | none => exact .inl (by simp [createCertificateDevmode, hi])
  | some i =>
    by_cases hsame : o'.certificateFile = o.certificateFile
    · have hstem : o'.privkeyFile = o.privkeyFile := by
        have hcancel := List.append_cancel_right hsame
        exact congrArg (· ++ ascii ".key.prv.pem") hcancel
      rw [hsame, hstem]
      exact .inr ⟨i, rfl, files_issued hi⟩
    · have hkey : o'.privkeyFile ≠ o.privkeyFile := by
        intro he
        have hcancel := List.append_cancel_right he
        exact hsame (congrArg (· ++ ascii ".crt.pem") hcancel)
      have hcp : o'.certificateFile ≠ o.pubkeyFile := file_ne (by decide) (by decide) (by decide)
      have hck : o'.certificateFile ≠ o.privkeyFile := file_ne (by decide) (by decide) (by decide)
      have hpc : o'.privkeyFile ≠ o.certificateFile := file_ne (by decide) (by decide) (by decide)
      have hpp : o'.privkeyFile ≠ o.pubkeyFile := file_ne (by decide) (by decide) (by decide)
      refine .inl ⟨?_, ?_⟩
      · simp [createCertificateDevmode, hi, Function.update_of_ne, hsame, hcp, hck]
      · simp [createCertificateDevmode, hi, Function.update_of_ne, hkey, hpc, hpp]

end Files

/-- The field that the build decodes to the certificate, whatever `THING_ARN` is. -/
theorem secret_of_run {o : Options} {r : Replies} {files files' : Files} {stdin : List Byte}
    (hfits : suiteFits o.suiteId = true) {update : Bool} {secretName : Word}
    {secretString : List Byte}
    (h : createIotCredential o r files stdin = .secret update secretName secretString files') :
    (∀ i, r.createKeysAndCertificate = some i →
      FlatJson.field (ascii "certificate_arn") secretString = some i.certificateArn.word.bytes ∧
      (FlatJson.field (ascii "certificate") secretString).bind buildDecode =
        some i.certificatePem ∧
      (FlatJson.field (ascii "privatekey") secretString).bind buildDecode = some i.privateKey) ∧
    (r.createKeysAndCertificate = none →
      (FlatJson.field (ascii "certificate") secretString).bind buildDecode =
        some ((files o.privkeyFile).getD [])) := by
  obtain ⟨name, heq⟩ := createIotCredential_eq files stdin (reachesSecret_of_secret h)
  rw [heq] at h
  obtain ⟨-, -, hstring, -⟩ := Outcome.secret.inj h
  generalize hthing : (if looksThingUp o r then ascii "None" else r.thingArn.word.bytes) =
    thingArn at hstring
  have hw : Wordy thingArn ∧ thingArn ≠ [] := by
    subst hthing
    split
    · exact ⟨by decide, by decide⟩
    · exact ⟨r.thingArn.word.mem_ok, r.thingArn.word.ne_nil⟩
  have hargs := (storeArgs_eq (o := o) (r := r) hw.1).2
  obtain ⟨-, hcertArn, hcert, hkey⟩ := secret_fields hfits hargs hstring.symm
  have hcrt : Wordy o.certificateFile := wordy_file o (by decide)
  have hprv : Wordy o.privkeyFile := wordy_file o (by decide)
  constructor
  · intro i hi
    obtain ⟨rest, hissued⟩ := storeArgs_issued (o := o) hi hw.1 hw.2
    have hfiles : (createCertificateDevmode o r files).2 o.certificateFile = some i.certificatePem ∧
        (createCertificateDevmode o r files).2 o.privkeyFile = some i.privateKey := files_issued hi
    simp only [hissued, List.getD_cons_succ, List.getD_cons_zero] at hcertArn hcert hkey
    refine ⟨hcertArn, ?_, ?_⟩
    · rw [hcert, Option.bind_some]
      exact buildDecode_base64 hcrt (file_ne_nil _) hfiles.1
    · rw [hkey, Option.bind_some]
      exact buildDecode_base64 hprv (file_ne_nil _) hfiles.2
  · intro hi
    -- the key file has moved to the place of the certificate file
    obtain ⟨rest, hfailed⟩ := storeArgs_failed (o := o) hi hw.1 hw.2
    have hsame : (createCertificateDevmode o r files).2 = files := by
      simp [createCertificateDevmode, hi]
    simp only [hfailed, hsame, List.getD_cons_succ, List.getD_cons_zero] at hcert
    rw [hcert, Option.bind_some]
    exact buildDecode_operand hprv (file_ne_nil _)

section History

variable {s : Site} {x : Invocation} {history : List Invocation}

theorem Stored.Backed.mono {certificates : List Issued} {y : Stored} (h : y.Backed certificates)
    (more : List Issued) : y.Backed (certificates ++ more) := by
  intro hfits
  have hbacked := h hfits
  split at hbacked
  · exact ⟨List.mem_append_left more hbacked.1, hbacked.2⟩
  · exact hbacked.imp_right fun ⟨i, hi, hkey⟩ => ⟨i, List.mem_append_left more hi, hkey⟩

theorem Site.run_paired {o : Options} (h : Paired s o) : Paired (s.run x) o := by
  unfold Paired
  rw [Site.run_files, Site.run_certificates]
  rcases createCertificateDevmode_files o with ⟨hcert, hkey⟩ | ⟨i, hi, hcert, hkey⟩
  · rw [hcert, hkey]
    exact h.imp_right fun ⟨i, hi, hfiles⟩ => ⟨i, List.mem_append_left _ hi, hfiles⟩
  · refine .inr ⟨i, List.mem_append_right _ ?_, hcert, hkey⟩
    rw [hi]
    exact List.mem_singleton_self i

theorem Site.run_secrets {secretName : Word} {y : Stored}
    (h : (s.run x).secrets secretName = some y) : s.secrets secretName = some y ∨
      ∃ update files', createIotCredential x.options x.replies s.files x.stdin =
        .secret update secretName y.secretString files' ∧
          y.suiteId = x.options.suiteId ∧ y.issued = x.replies.createKeysAndCertificate := by
  change s.store x (createIotCredential x.options x.replies s.files x.stdin) secretName =
    some y at h
  cases hrun : createIotCredential x.options x.replies s.files x.stdin with
  | exited message =>
    rw [hrun] at h
    exact .inl h
  | noSecret =>
    rw [hrun] at h
    exact .inl h
  | secret update name secretString files' =>
    rw [hrun, Site.store] at h
    split at h
    · by_cases hname : secretName = name
      · subst hname
        rw [Function.update_self] at h
        obtain rfl := Option.some.inj h
        exact .inr ⟨update, files', rfl, rfl, rfl⟩
      · rw [Function.update_of_ne hname] at h
        exact .inl h
    · exact .inl h

theorem Site.run_backed (hpaired : ∀ o, Paired s o)
    (hbacked : ∀ secretName y, s.secrets secretName = some y → y.Backed s.certificates)
    {secretName : Word} {y : Stored} (h : (s.run x).secrets secretName = some y) :
    y.Backed (s.run x).certificates := by
  rcases Site.run_secrets h with hold | ⟨update, files', hrun, hsuite, hissued⟩
  · exact (hbacked secretName y hold).mono _
  · intro hfits
    obtain ⟨hsome, hnone⟩ := secret_of_run (hsuite ▸ hfits) hrun
    rw [hissued]
    cases hi : x.replies.createKeysAndCertificate with
    | some i =>
      refine ⟨List.mem_append_right _ ?_, hsome i hi⟩
      rw [hi]
      exact List.mem_singleton_self i
    | none =>
      have hfield := hnone hi
      rcases hpaired x.options with ⟨-, hkey⟩ | ⟨i, hmem, -, hkey⟩
      · rw [hkey] at hfield
        exact .inl hfield
      · rw [hkey] at hfield
        exact .inr ⟨i, List.mem_append_left _ hmem, hfield⟩

theorem Consistent.run (h : Consistent s history) : Consistent (s.run x) (history ++ [x]) where
  certificates := by
    rw [Site.run_certificates, h.certificates, List.filterMap_append]
    cases hx : x.replies.createKeysAndCertificate <;> simp [hx]
  paired o := Site.run_paired (h.paired o)
  backed _ _ hsecret := Site.run_backed h.paired h.backed hsecret

end History

def someIssued : Issued where
  certificateArn := someArn
  certificatePem := ascii "crt"
  publicKey := ascii "pub"
  privateKey := ascii "key"

def issuedKeys : Replies := { failedKeys with createKeysAndCertificate := some someIssued }

end Stm32f7Renode.Credential
