import Stm32f7Renode.CommandLine
import Stm32f7Renode.CredentialHistory
import Stm32f7Renode.DaMonitor

/-!
From the stack that `cfn-da-cicd.yml` creates, through the bootstrap of the
development machine and the credential script, to the secret and the two builds
that take their environment from it.
-/

namespace Stm32f7Renode.Pipeline
open WireText Shell Getopts Credential CommandLine DaMonitor

/-- The parameters of `C9BootstrapAssociation`, none with syntax of the shell in it. -/
structure Deployment where
  myappRepo : Word
  myappDaSuiteId : Word
  thingName : ThingName
  secretName : Word
  literal : Literal (myappRepo.bytes ++ myappDaSuiteId.bytes ++ secretName.bytes)

/-- The arguments of `initialize-self-directed.sh` in `C9SSMDocument`, where the parameters are
replaced before two shells read the command. -/
def Deployment.arguments (d : Deployment) : Option (List (List Byte)) :=
  commandWords ([0x20].intercalate
    [d.myappRepo.bytes, d.myappDaSuiteId.bytes, d.thingName.bytes, d.secretName.bytes])

def basedir (home : Word) : List Byte := home.bytes ++ ascii "/environment"

/-- The arguments with which `initialize-self-directed.sh` calls `create-iot-credential.sh`. -/
def initializeSelfDirected (home mydevice : Word) (args : List (List Byte)) : List (List Byte) :=
  [ascii "-F",
    ascii "-d", args.getD 1 [],
    ascii "-t", args.getD 2 [],
    ascii "-n"] ++ words (ascii "awscsdk-mqtt-policy-" ++ mydevice.bytes) ++
    [ascii "-f"] ++
      words (basedir home ++ ascii "/myapp-config/configuration/awscsdk-iotcore-policy.json") ++
    [ascii "-o"] ++ words (basedir home ++ ascii "/credentials") ++
    [ascii "-s", args.getD 3 [],
    ascii "-S"]

def variablesOf (o : Options) : Variables where
  suiteId := o.suiteId
  thingName := o.thingName.bytes
  force := o.force
  policyFile := (o.policyFile.map Token.bytes).getD []
  policyName := o.policyName.bytes
  secretName := (o.secretName.map Token.bytes).getD []
  secretUpdate := o.secretUpdate
  volatileDir := o.volatileDir.bytes

def Deployment.options (d : Deployment) (home mydevice : Word) : Options where
  volatileDir := ⟨basedir home ++ ascii "/credentials", by simp [basedir, home.ne_nil],
    List.all_eq_true.mpr (Wordy.append (Wordy.append home.mem_ok (by decide)) (by decide))⟩
  thingName := d.thingName
  policyName := ⟨ascii "awscsdk-mqtt-policy-" ++ mydevice.bytes, by simp [mydevice.ne_nil],
    List.all_eq_true.mpr (Wordy.append (by decide) mydevice.mem_ok)⟩
  policyFile := some
    ⟨basedir home ++ ascii "/myapp-config/configuration/awscsdk-iotcore-policy.json",
    by simp [basedir, home.ne_nil],
    List.all_eq_true.mpr (Wordy.append (Wordy.append home.mem_ok (by decide)) (by decide))⟩
  secretName := some d.secretName
  suiteId := d.myappDaSuiteId.bytes
  force := true
  secretUpdate := true

/-- A variable of a build project and the key of the secret that it has its value from. -/
abbrev EnvironmentVariable := List Byte × List Byte

def buildVariables : List EnvironmentVariable :=
  [(ascii "certificate", ascii "certificate"),
    (ascii "privatekey", ascii "privatekey"),
    (ascii "iotcore_endpoint", ascii "iotcore_endpoint"),
    (ascii "da_endpoint", ascii "da_endpoint"),
    (ascii "thing_name", ascii "thing_name")]

def testVariables : List EnvironmentVariable :=
  [(ascii "certificate", ascii "certificate"),
    (ascii "privatekey", ascii "privatekey"),
    (ascii "iotcore_endpoint", ascii "iotcore_endpoint"),
    (ascii "da_endpoint", ascii "da_endpoint"),
    (ascii "da_suite", ascii "da_suite"),
    (ascii "thing_arn", ascii "thing_arn"),
    (ascii "certificate_arn", ascii "certificate_arn")]

/-- The variables of a build, if the secret has all keys; without one of them it does not start. -/
def environment (base : Env) (vars : List EnvironmentVariable) (secretString : List Byte) :
    Option Env :=
  (vars.mapM fun v => (FlatJson.field v.2 secretString).map (v.1, ·)).map (·.foldl Env.assign base)

inductive Command
  | run (line : List Byte)
  | decode (name file : List Byte)
  | assign (name line : List Byte)
  | monitor (arguments : List (List Byte))

structure Build where
  env : Env
  files : Files

structure World where
  /-- The lines, as they are after expansion, that end with status zero. -/
  succeeds : List Byte → Bool
  output : List Byte → Option Word
  /-- What `get-suite-run` returns to the calls of a monitor, by its arguments. -/
  getSuiteRun : List (List Byte) → ℕ → Reply

/-- The monitor ends with this status; it may also go on for ever. -/
def Exits (replies : ℕ → Reply) (status : ℕ) : Prop :=
  ∃ n s, daMonitor.exec start ((List.range n).map replies) = some s ∧ s.inProgress = false ∧
    s.monitorStatus = status

def suiteRunArguments (args : List (List Byte)) : List (List Byte) :=
  ascii "--suite-definition-id" :: words (args.getD 0 []) ++
    ascii "--suite-run-id" :: words (args.getD 1 [])

def Command.Succeeds (w : World) (s : Build) : Command → Build → Prop
  | .run line, t => w.succeeds (expand s.env line) = true ∧ t = s
  | .decode name file, t => ∃ bytes, buildDecode ((s.env name).getD []) = some bytes ∧
      t = { s with files := Function.update s.files file (some bytes) }
  | .assign name line, t => ∃ reply, w.output (expand s.env line) = some reply ∧
      t = { s with env := s.env.assign (name, outputOf (some reply.bytes)) }
  | .monitor arguments, t =>
      Exits (w.getSuiteRun (suiteRunArguments (arguments.flatMap (words <| expand s.env ·)))) 0 ∧
        t = s

/-- The commands up to the first that fails; a build succeeds if none does. -/
def Run (w : World) : List Command → Build → Build → Prop
  | [], s, t => t = s
  | c :: cs, s, t => ∃ u, c.Succeeds w s u ∧ Run w cs u t

def configure : List (List Byte) :=
  [ascii "git config --global user.name \"Cloudy Builder\"",
    ascii "git config --global user.email \"email@example.com\""]

def decodeFiles : List Command :=
  [.decode (ascii "certificate") (ascii "/etc/cert.pem"),
    .decode (ascii "privatekey") (ascii "/etc/key.pem")]

def buildSetUp : List (List Byte) := configure ++
  [ascii "yum remove -y openssl-devel",
    ascii "yum install -y jq openssl11 openssl11-devel",
    ascii "wget https://github.com/Kitware/CMake/releases/download/v3.21.4/" ++
      ascii "cmake-3.21.4-linux-x86_64.sh",
    ascii "mkdir $\x7bCODEBUILD_SRC_DIR\x7d/../cmake",
    ascii "sh ./cmake-3.21.4-linux-x86_64.sh --skip-license " ++
      ascii "--prefix=$\x7bCODEBUILD_SRC_DIR\x7d/../cmake",
    ascii "export PATH=$\x7bCODEBUILD_SRC_DIR\x7d/../cmake/bin:$PATH",
    ascii "mkdir $\x7bCODEBUILD_SRC_DIR\x7d/credentials"]

def cmakeLine : List Byte := ascii "cmake -S . -Bbuild -DBUILD_TESTS=0 " ++
  ascii "-DAWS_IOT_ENDPOINT=\"$\x7bda_endpoint\x7d\" -DCLIENT_CERT_PATH=\"/etc/cert.pem\" " ++
  ascii "-DCLIENT_PRIVATE_KEY_PATH=\"/etc/key.pem\" -DTHING_NAME=\"$\x7bthing_name\x7d\""

def buildMake : List (List Byte) :=
  [ascii "cd $\x7bCODEBUILD_SRC_DIR\x7d",
    ascii "git submodule update --init --recursive",
    cmakeLine,
    ascii "cd build",
    ascii "make mqtt_demo_mutual_auth"]

def buildCommands : List Command := buildSetUp.map .run ++ decodeFiles ++ buildMake.map .run

def testSetUp : List (List Byte) := configure ++
  [ascii "yum install -y jq openssl11",
    ascii "pip3 install awscli --upgrade",
    ascii "ls -lR $\x7bCODEBUILD_SRC_DIR_BuildArtifact\x7d",
    ascii "cd $\x7bCODEBUILD_SRC_DIR_BuildArtifact\x7d/build/bin"]

def testDemo : List (List Byte) :=
  [ascii "export LD_LIBRARY_PATH=$\x7bCODEBUILD_SRC_DIR_BuildArtifact\x7d/build/lib:" ++
      ascii "$\x7bLD_LIBRARY_PATH\x7d",
    ascii "nohup ./mqtt_demo_mutual_auth > " ++
      ascii "$\x7bCODEBUILD_SRC_DIR_BuildArtifact\x7d/myapp-integration.log & echo $! > " ++
      ascii "$\x7bCODEBUILD_SRC_DIR_BuildArtifact\x7d/myapp-integration.pid"]

def startSuiteRunLine : List Byte := ascii "aws iotdeviceadvisor start-suite-run " ++
  ascii "--suite-definition-id $\x7bda_suite\x7d --suite-run-configuration \"primaryDevice=" ++
  ascii "\x7bthingArn=$\x7bthing_arn\x7d,certificateArn=$\x7bcertificate_arn\x7d\x7d\" " ++
  ascii "--output text --query suiteRunId"

def testFinish : List (List Byte) :=
  [ascii "kill $(cat $\x7bCODEBUILD_SRC_DIR_BuildArtifact\x7d/myapp-integration.pid)",
    ascii "cat $\x7bCODEBUILD_SRC_DIR_BuildArtifact\x7d/myapp-integration.log"]

def testCommands : List Command :=
  testSetUp.map .run ++ decodeFiles ++ testDemo.map .run ++
    [.assign (ascii "suite_run_id") startSuiteRunLine,
      .monitor [ascii "$\x7bda_suite\x7d", ascii "$\x7bsuite_run_id\x7d"]] ++ testFinish.map .run

def PassesFirst (replies : ℕ → Reply) : Prop :=
  ∃ n, (replies n).overallStatus = Status.pass.text ∧ ∀ i < n, ∀ st : Status,
    (replies i).overallStatus = st.text → st.handled = false

/-- The configuration of a build for an endpoint and a thing. -/
def configuredFor (endpoint thingName : List Byte) : List Byte :=
  ascii "cmake -S . -Bbuild -DBUILD_TESTS=0 -DAWS_IOT_ENDPOINT=\"" ++ (endpoint ++
    (ascii "\" -DCLIENT_CERT_PATH=\"/etc/cert.pem\" -DCLIENT_PRIVATE_KEY_PATH=\"/etc/key.pem\" " ++
      ascii "-DTHING_NAME=\"" ++ (thingName ++ ascii "\"")))

def suiteRunOf (suite thingArn certificateArn : List Byte) : List Byte :=
  ascii "aws iotdeviceadvisor start-suite-run --suite-definition-id " ++ (suite ++
    (ascii " --suite-run-configuration \"primaryDevice=\x7bthingArn=" ++ (thingArn ++
      (ascii ",certificateArn=" ++ (certificateArn ++
        ascii "\x7d\" --output text --query suiteRunId")))))

def deviceFiles (i : Issued) (files : Files) : Files :=
  Function.update (Function.update files (ascii "/etc/cert.pem") (some i.certificatePem))
    (ascii "/etc/key.pem") (some i.privateKey)

/-- The build stage makes an image for the device, if its tools do not fail. -/
structure BuildsDevice (d : Deployment) (r : Replies) (i : Issued) (env : Env) : Prop where
  configured : ∀ endpoint, r.describeDaEndpoint = some endpoint →
    expand env cmakeLine = configuredFor endpoint.bytes d.thingName.bytes
  builds : ∀ w files t, Run w buildCommands ⟨env, files⟩ t ↔
    (∀ line ∈ buildSetUp ++ buildMake, w.succeeds (expand env line) = true) ∧
      t = ⟨env, deviceFiles i files⟩

/-- The test stage lets a version through if and only if the suite run that it starts on the
device passes, and no tool fails. -/
structure TestsDevice (d : Deployment) (r : Replies) (i : Issued) (env : Env) : Prop where
  files : ∀ w files t, Run w testCommands ⟨env, files⟩ t → t.files = deviceFiles i files
  passes : ∀ w files, (∃ t, Run w testCommands ⟨env, files⟩ t) ↔
    (∀ line ∈ testSetUp ++ testDemo, w.succeeds (expand env line) = true) ∧
    ∃ run : Word, w.output (suiteRunOf d.myappDaSuiteId.bytes r.thingArn.word.bytes
        i.certificateArn.word.bytes) = some run ∧
      PassesFirst (w.getSuiteRun [ascii "--suite-definition-id", d.myappDaSuiteId.bytes,
        ascii "--suite-run-id", run.bytes]) ∧
      ∀ line ∈ testFinish,
        w.succeeds (expand (env.assign (ascii "suite_run_id", run.bytes)) line) = true

theorem no_blank_of_wordy {text : List Byte} (h : Wordy text) : ∀ b ∈ text, isBlank b = false :=
  fun b hb => (wordByte_facts (h b hb)).1

theorem Deployment.arguments_eq (d : Deployment) : d.arguments =
    some [d.myappRepo.bytes, d.myappDaSuiteId.bytes, d.thingName.bytes, d.secretName.bytes] := by
  have htext : [0x20].intercalate
      [d.myappRepo.bytes, d.myappDaSuiteId.bytes, d.thingName.bytes, d.secretName.bytes] =
      d.myappRepo.bytes ++ 0x20 :: (d.myappDaSuiteId.bytes ++ 0x20 :: (d.thingName.bytes ++
        0x20 :: d.secretName.bytes)) := by
    simp [List.intercalate]
  have hthing := no_blank_of_wordy (wordy_thingName d.thingName)
  have hsecret : Wordy d.secretName.bytes := d.secretName.mem_ok
  have hliteral := d.literal
  have hname := literal_thingName d.thingName
  rw [Deployment.arguments, htext, commandWords, if_pos, words_append_blank d.myappRepo.ne_nil
      (no_blank_of_wordy d.myappRepo.mem_ok), words_append_blank d.myappDaSuiteId.ne_nil
      (no_blank_of_wordy d.myappDaSuiteId.mem_ok), words_append_blank d.thingName.ne_nil hthing,
    hsecret.words d.secretName.ne_nil]
  simp only [Literal, List.mem_append] at hliteral hname
  rw [List.all_eq_true]
  intro b hb
  simp only [List.mem_append, List.mem_cons] at hb
  rcases hb with hb | rfl | hb | rfl | hb | rfl | hb
  · simp [hliteral b (.inl (.inl hb))]
  · rfl
  · simp [hliteral b (.inl (.inr hb))]
  · rfl
  · simp [hname b hb]
  · rfl
  · simp [hliteral b (.inr hb)]

def Deployment.groups (d : Deployment) (home mydevice : Word) : List Group :=
  let o := d.options home mydevice
  [.flags 'F'.toUInt8 [],
    .separate [] 'd'.toUInt8 d.myappDaSuiteId.bytes,
    .separate [] 't'.toUInt8 d.thingName.bytes,
    .separate [] 'n'.toUInt8 o.policyName.bytes,
    .separate [] 'f'.toUInt8 ((o.policyFile.map Token.bytes).getD []),
    .separate [] 'o'.toUInt8 o.volatileDir.bytes,
    .separate [] 's'.toUInt8 d.secretName.bytes,
    .flags 'S'.toUInt8 []]

theorem initializeSelfDirected_eq (d : Deployment) (home mydevice : Word) :
    initializeSelfDirected home mydevice
        [d.myappRepo.bytes, d.myappDaSuiteId.bytes, d.thingName.bytes, d.secretName.bytes] =
      (d.groups home mydevice).flatMap Group.render := by
  have hpolicy : Wordy (ascii "awscsdk-mqtt-policy-" ++ mydevice.bytes) :=
    Wordy.append (by decide) mydevice.mem_ok
  have hbase : Wordy (basedir home) := Wordy.append home.mem_ok (by decide)
  have hfile : Wordy (basedir home ++
      ascii "/myapp-config/configuration/awscsdk-iotcore-policy.json") :=
    hbase.append (by decide)
  have hdir : Wordy (basedir home ++ ascii "/credentials") := hbase.append (by decide)
  have hne : basedir home ≠ [] := by simp [basedir, home.ne_nil]
  rw [initializeSelfDirected, hpolicy.words (by simp [mydevice.ne_nil]), hdir.words (by simp [hne]),
    hfile.words (by simp [hne])]
  rfl

theorem Deployment.groups_valid (d : Deployment) (home mydevice : Word) :
    ∀ g ∈ d.groups home mydevice, g.Valid optstring := by
  simp only [Deployment.groups, List.forall_mem_cons, Group.Valid, List.not_mem_nil, false_implies,
    implies_true, true_and, and_true]
  decide

theorem initializeSelfDirected_read (d : Deployment) (home mydevice : Word) (env : Env)
    (dirname : List Byte) :
    ∃ args, d.arguments = some args ∧
      readOptions (initial env dirname) (initializeSelfDirected home mydevice args) =
        .ok (variablesOf (d.options home mydevice)) := by
  have hnil : (getopts optstring none []).1 = [] := rfl
  have hread := readOptions_groups (d.groups_valid home mydevice) (initial env dirname) hnil
  have hhelp : ((d.groups home mydevice).flatMap Group.options).any (·.opt = 'h'.toUInt8) = false :=
    rfl
  have hgiven : given (initial env dirname) ((d.groups home mydevice).flatMap Group.options) =
      variablesOf (d.options home mydevice) := rfl
  rw [List.append_nil, ← initializeSelfDirected_eq, hhelp, if_neg (by simp), hgiven] at hread
  have hname : (variablesOf (d.options home mydevice)).thingName ≠ [] :=
    d.thingName.ne_nil
  have hpolicy : (variablesOf (d.options home mydevice)).policyName ≠ [] :=
    Token.ne_nil _
  rw [checkNames, if_neg hname, if_neg hpolicy] at hread
  exact ⟨_, d.arguments_eq, hread⟩

section Secret

variable {o : Options} {r : Replies} {i : Issued} {files files' : Files} {stdin : List Byte}

theorem secretName_of_secret {update : Bool} {secretName : Word} {secretString : List Byte}
    (h : createIotCredential o r files stdin = .secret update secretName secretString files') :
    o.secretName = some secretName := by
  simp only [createIotCredential] at h
  split at h
  · cases h
  · split at h
    · cases h
    · split at h
      · cases h
      · rename_i name hname
        rw [hname, (Outcome.secret.inj h).2.1]

/-- What the builds take from the secret of a device. -/
structure DeviceSecret (o : Options) (r : Replies) (i : Issued) (secretString : List Byte) :
    Prop where
  thingName : FlatJson.field (ascii "thing_name") secretString = some o.thingName.bytes
  thingArn : FlatJson.field (ascii "thing_arn") secretString = some r.thingArn.word.bytes
  certificateArn : FlatJson.field (ascii "certificate_arn") secretString =
    some i.certificateArn.word.bytes
  iotcoreEndpoint : (FlatJson.field (ascii "iotcore_endpoint") secretString).isSome = true
  daEndpoint : FlatJson.field (ascii "da_endpoint") secretString =
    some (outputOf (r.describeDaEndpoint.map Token.bytes))
  daSuite : FlatJson.field (ascii "da_suite") secretString =
    some o.suiteId
  certificate : (FlatJson.field (ascii "certificate") secretString).bind buildDecode =
    some i.certificatePem
  privatekey : (FlatJson.field (ascii "privatekey") secretString).bind buildDecode =
    some i.privateKey

/-- A forced run that creates the thing and issues the certificate stores the secret of the
device. -/
theorem deviceSecret (hi : r.createKeysAndCertificate = some i) (hthing : r.createThing = true)
    (hforce : o.force = true) (hplain : ∀ b ∈ o.suiteId, FlatJson.isPlain b = true)
    {secretName : Word} (hsecret : o.secretName = some secretName) :
    ∃ secretString files', createIotCredential o r files stdin =
      .secret o.secretUpdate secretName secretString files' ∧ DeviceSecret o r i secretString := by
  have hreach : reachesSecret o r = true := by
    simp [reachesSecret, thingResolved, looksThingUp, policyResolved, hsecret, hforce, hthing]
  have hlooks : looksThingUp o r = false := by simp [looksThingUp, hforce]
  obtain ⟨name, heq⟩ := createIotCredential_eq files stdin hreach
  obtain rfl : name = secretName :=
    Option.some.inj ((secretName_of_secret heq).symm.trans hsecret)
  rw [hlooks, if_neg (by simp)] at heq
  obtain ⟨secretString, hstring⟩ : ∃ secretString, secretString = FlatJson.render heredoc
      (secretMembers o r (createCertificateDevmode o r files).2 (stdinAfterPolicy o r stdin)
        (storeArgs o r r.thingArn.word.bytes)) := ⟨_, rfl⟩
  rw [← hstring] at heq
  have harn : Wordy r.thingArn.word.bytes := r.thingArn.word.mem_ok
  have hne := r.thingArn.word.ne_nil
  have hargs := (storeArgs_eq (o := o) (r := r) harn).2
  have hfront := (storeArgs_front (o := o) (r := r) harn hne).1
  have hissued : (createCertificateDevmode o r files).2 o.certificateFile = some i.certificatePem ∧
      (createCertificateDevmode o r files).2 o.privkeyFile = some i.privateKey := files_issued hi
  obtain ⟨hname, hiotcore, hda, hsuite⟩ := secret_endpoints hplain hargs hstring
  obtain ⟨hthingArn, ⟨j, hj, hcertArn⟩, ⟨crt, hcrt, hcert⟩, ⟨prv, hprv, hkey⟩⟩ :=
    (secret_issued (suiteFits_of_plain hplain) hi harn hne rfl hstring).2 rfl
  obtain rfl := Option.some.inj (hi.symm.trans hj)
  obtain rfl := Option.some.inj (hissued.1.symm.trans hcrt)
  obtain rfl := Option.some.inj (hissued.2.symm.trans hprv)
  exact ⟨secretString, _, heq, hname.trans (congrArg some hfront), hthingArn, hcertArn,
    hiotcore ▸ rfl, hda, hsuite, hcert, hkey⟩

end Secret

theorem environment_of_fields (base : Env) {vars : List EnvironmentVariable}
    {secretString : List Byte} (hnodup : (vars.map Prod.fst).Nodup)
    (h : ∀ v ∈ vars, (FlatJson.field v.2 secretString).isSome = true) :
    ∃ env, environment base vars secretString = some env ∧
      ∀ v ∈ vars, env v.1 = FlatJson.field v.2 secretString := by
  have hvalues : ∃ values, (vars.mapM fun v =>
      (FlatJson.field v.2 secretString).map (v.1, ·)) = some values ∧
        values.map Prod.fst = vars.map Prod.fst ∧
        ∀ v ∈ vars, ∃ x, FlatJson.field v.2 secretString = some x ∧ (v.1, x) ∈ values := by
    clear hnodup
    induction vars with
    | nil => exact ⟨[], rfl, rfl, by simp⟩
    | cons v vars ih =>
      obtain ⟨hv, hvars⟩ := List.forall_mem_cons.mp h
      obtain ⟨x, hx⟩ := Option.isSome_iff_exists.mp hv
      obtain ⟨values, hmap, hnames, hmem⟩ := ih hvars
      refine ⟨(v.1, x) :: values, ?_, by simp [hnames], List.forall_mem_cons.mpr
        ⟨⟨x, hx, List.mem_cons_self⟩, fun u hu => ?_⟩⟩
      · rw [List.mapM_cons, hmap, hx]
        rfl
      · obtain ⟨y, hy, hin⟩ := hmem u hu
        exact ⟨y, hy, List.mem_cons_of_mem _ hin⟩
  obtain ⟨values, hmap, hnames, hmem⟩ := hvalues
  refine ⟨values.foldl Env.assign base, by rw [environment, hmap]; rfl, fun v hv => ?_⟩
  obtain ⟨x, hx, hin⟩ := hmem v hv
  rw [hx, foldl_assign_of_mem (hnames ▸ hnodup) hin]

section Runs

variable {w : World} {s t : Build}

theorem run_append {cs ds : List Command} :
    Run w (cs ++ ds) s t ↔ ∃ u, Run w cs s u ∧ Run w ds u t := by
  induction cs generalizing s with
  | nil => simp [Run]
  | cons c cs ih =>
    simp only [List.cons_append, Run, ih]
    constructor
    · rintro ⟨u, hu, v, hv, ht⟩
      exact ⟨v, ⟨u, hu, hv⟩, ht⟩
    · rintro ⟨v, ⟨u, hu, hv⟩, ht⟩
      exact ⟨u, hu, v, hv, ht⟩

theorem run_lines {lines : List (List Byte)} :
    Run w (lines.map .run) s t ↔
      (∀ line ∈ lines, w.succeeds (expand s.env line) = true) ∧ t = s := by
  induction lines with
  | nil => simp [Run]
  | cons line lines ih =>
    simp only [List.map_cons, Run, Command.Succeeds, List.forall_mem_cons]
    constructor
    · rintro ⟨u, ⟨hline, rfl⟩, hrun⟩
      obtain ⟨hlines, ht⟩ := ih.mp hrun
      exact ⟨⟨hline, hlines⟩, ht⟩
    · rintro ⟨⟨hline, hlines⟩, ht⟩
      exact ⟨s, ⟨hline, rfl⟩, ih.mpr ⟨hlines, ht⟩⟩

end Runs

/-- A monitor that has stopped has done so at its last reply. -/
theorem exec_stopped {rs : List Reply} {s t : Monitor} (hs : s.inProgress = true)
    (h : daMonitor.exec s rs = some t) (ht : t.inProgress = false) :
    ∃ (qs : List Reply) (r : Reply) (st : Status), rs = qs ++ [r] ∧
      (∀ q ∈ qs, ∀ u : Status, q.overallStatus = u.text → u.handled = false) ∧
      st.handled = true ∧ r.overallStatus = st.text ∧
      t.monitorStatus = if st.passing then 0 else 1 := by
  induction rs generalizing s with
  | nil =>
    obtain rfl := Option.some.inj h
    exact absurd (hs.symm.trans ht) (by simp)
  | cons r rs ih =>
    obtain ⟨u, hu, h⟩ := TransitionSystem.exec_cons_some.mp h
    rw [step_of_inProgress hs] at hu
    obtain rfl := Option.some.inj hu
    by_cases hr : ∀ st : Status, r.overallStatus = st.text → st.handled = false
    · -- the loop goes on
      have hgo : (poll s r).inProgress = true := by rw [poll_of_not_handled s hr]; exact hs
      obtain ⟨qs, q, st, rfl, hqs, hst⟩ := ih hgo h
      exact ⟨r :: qs, q, st, rfl, List.forall_mem_cons.mpr ⟨hr, hqs⟩, hst⟩
    · push Not at hr
      obtain ⟨st, hst, hhandled⟩ := hr
      have hhandled : st.handled = true := by simpa using hhandled
      obtain ⟨hstop, hstatus⟩ := poll_of_handled s hhandled hst
      cases rs with
      | nil =>
        obtain rfl := Option.some.inj h
        exact ⟨[], r, st, rfl, by simp, hhandled, hst, hstatus⟩
      | cons q rs =>
        obtain ⟨v, hv, -⟩ := TransitionSystem.exec_cons_some.mp h
        exact absurd hv (by simp [daMonitor, hstop])

theorem eq_pass {st : Status} (hhandled : st.handled = true)
    (hzero : (if st.passing then 0 else 1) = 0) : st = .pass := by
  revert hhandled hzero
  cases st <;> decide

theorem exits_zero_iff {replies : ℕ → Reply} : Exits replies 0 ↔ PassesFirst replies := by
  constructor
  · rintro ⟨n, t, hexec, hstop, hstatus⟩
    obtain ⟨qs, r, st, hsplit, hqs, hhandled, hst, hexit⟩ := exec_stopped rfl hexec hstop
    cases n with
    | zero => simp at hsplit
    | succ n =>
      rw [List.range_succ, List.map_append, List.map_singleton] at hsplit
      obtain ⟨rfl, hr⟩ := List.append_inj' hsplit rfl
      obtain rfl := (List.singleton_inj.mp hr).symm
      refine ⟨n, ?_, fun i hi => hqs _ (List.mem_map_of_mem (List.mem_range.mpr hi))⟩
      rw [hst, eq_pass hhandled (hexit.symm.trans hstatus)]
  · rintro ⟨n, hpass, hbefore⟩
    have hrun : ∀ r ∈ (List.range n).map replies, ∀ st : Status, r.overallStatus = st.text →
        st.handled = false := by
      intro r hr
      obtain ⟨i, hi, rfl⟩ := List.mem_map.mp hr
      exact hbefore i (List.mem_range.mp hi)
    have hexec := exec_of_not_handled (show start.inProgress = true from rfl) hrun
    generalize hlast : ({ start with output := _ } : Monitor) = last at hexec
    have hgo : last.inProgress = true := hlast ▸ rfl
    obtain ⟨hstop, hstatus⟩ := poll_of_handled last rfl hpass
    refine ⟨n + 1, poll last (replies n), ?_, hstop, hstatus⟩
    rw [List.range_succ, List.map_append, TransitionSystem.exec_append, hexec, Option.bind_some,
      List.map_singleton, TransitionSystem.exec_singleton, step_of_inProgress hgo]

section Stages

variable {d : Deployment} {home mydevice : Word} {r : Replies} {i : Issued}
  {secretString : List Byte}

theorem expand_cmakeLine {env : Env} {endpoint thingName : List Byte}
    (hendpoint : env (ascii "da_endpoint") = some endpoint)
    (hthing : env (ascii "thing_name") = some thingName) :
    expand env cmakeLine = configuredFor endpoint thingName := by
  have hline : cmakeLine = ascii "cmake -S . -Bbuild -DBUILD_TESTS=0 -DAWS_IOT_ENDPOINT=\"" ++
      0x24 :: 0x7b :: (ascii "da_endpoint" ++ 0x7d ::
        (ascii
            "\" -DCLIENT_CERT_PATH=\"/etc/cert.pem\" -DCLIENT_PRIVATE_KEY_PATH=\"/etc/key.pem\" " ++
          ascii "-DTHING_NAME=\"" ++
          0x24 :: 0x7b :: (ascii "thing_name" ++ 0x7d :: ascii "\""))) := by
    decide +kernel
  rw [hline, expand_variable (by decide +kernel) (by decide), hendpoint,
    expand_variable (by decide +kernel) (by decide), hthing, expand_literal (by decide)]
  rfl

theorem expand_startSuiteRunLine {env : Env} {suite thingArn certificateArn : List Byte}
    (hsuite : env (ascii "da_suite") = some suite)
    (hthing : env (ascii "thing_arn") = some thingArn)
    (hcert : env (ascii "certificate_arn") = some certificateArn) :
    expand env startSuiteRunLine = suiteRunOf suite thingArn certificateArn := by
  have hline : startSuiteRunLine =
      ascii "aws iotdeviceadvisor start-suite-run --suite-definition-id " ++
      0x24 :: 0x7b :: (ascii "da_suite" ++ 0x7d ::
        (ascii " --suite-run-configuration \"primaryDevice=\x7bthingArn=" ++
          0x24 :: 0x7b :: (ascii "thing_arn" ++ 0x7d :: (ascii ",certificateArn=" ++
            0x24 :: 0x7b :: (ascii "certificate_arn" ++ 0x7d ::
              ascii "\x7d\" --output text --query suiteRunId"))))) := by
    decide +kernel
  rw [hline, expand_variable (by decide +kernel) (by decide), hsuite,
    expand_variable (by decide +kernel) (by decide), hthing,
    expand_variable (by decide +kernel) (by decide), hcert, expand_literal (by decide +kernel)]
  rfl

theorem run_decodeFiles {o : Options} {env : Env} {files : Files} {w : World} {t : Build}
    (hs : DeviceSecret o r i secretString)
    (hcert : env (ascii "certificate") = FlatJson.field (ascii "certificate") secretString)
    (hkey : env (ascii "privatekey") = FlatJson.field (ascii "privatekey") secretString) :
    Run w decodeFiles ⟨env, files⟩ t ↔ t = ⟨env, deviceFiles i files⟩ := by
  obtain ⟨x, hx, hxcert⟩ := Option.bind_eq_some_iff.mp hs.certificate
  obtain ⟨y, hy, hykey⟩ := Option.bind_eq_some_iff.mp hs.privatekey
  simp [decodeFiles, Run, Command.Succeeds, hcert, hkey, hx, hy, hxcert, hykey, deviceFiles]

theorem buildsDevice {env : Env} (hs : DeviceSecret (d.options home mydevice) r i secretString)
    (henv : ∀ v ∈ buildVariables, env v.1 = FlatJson.field v.2 secretString) :
    BuildsDevice d r i env := by
  simp only [buildVariables, List.forall_mem_cons] at henv
  obtain ⟨hcert, hkey, -, hda, hname, -⟩ := henv
  refine ⟨fun endpoint hendpoint => ?_, ?_⟩
  · have hwordy : Wordy endpoint.bytes := endpoint.mem_ok
    have hfield := hda.trans hs.daEndpoint
    rw [hendpoint, Option.map_some, hwordy.output] at hfield
    exact expand_cmakeLine hfield (hname.trans hs.thingName)
  intro w files t
  rw [buildCommands]
  simp only [run_append, run_lines, List.forall_mem_append]
  constructor
  · rintro ⟨u, ⟨v, ⟨hsetUp, rfl⟩, hu⟩, hmake, rfl⟩
    obtain rfl := (run_decodeFiles hs hcert hkey).mp hu
    exact ⟨⟨hsetUp, hmake⟩, rfl⟩
  · rintro ⟨⟨hsetUp, hmake⟩, rfl⟩
    exact ⟨_, ⟨_, ⟨hsetUp, rfl⟩, (run_decodeFiles hs hcert hkey).mpr rfl⟩, hmake, rfl⟩

theorem expand_braces {env : Env} {name value : List Byte} (hname : 0x7d ∉ name)
    (h : env name = some value) : expand env (0x24 :: 0x7b :: (name ++ [0x7d])) = value := by
  have hnil : (0x24 : Byte) ∉ ([] : List Byte) := List.not_mem_nil
  have hexpand : expand env ([] ++ 0x24 :: 0x7b :: (name ++ [0x7d])) = _ :=
    expand_variable hnil hname []
  rw [List.nil_append, List.nil_append, h] at hexpand
  rw [hexpand]
  exact List.append_nil value

theorem run_monitor {env : Env} (hs : DeviceSecret (d.options home mydevice) r i secretString)
    (henv : ∀ v ∈ testVariables, env v.1 = FlatJson.field v.2 secretString) {w : World}
    {files : Files} {t : Build} :
    Run w [.assign (ascii "suite_run_id") startSuiteRunLine,
        .monitor [ascii "$\x7bda_suite\x7d", ascii "$\x7bsuite_run_id\x7d"]] ⟨env, files⟩ t ↔
      ∃ run : Word, w.output (suiteRunOf d.myappDaSuiteId.bytes r.thingArn.word.bytes
          i.certificateArn.word.bytes) = some run ∧
        PassesFirst (w.getSuiteRun [ascii "--suite-definition-id", d.myappDaSuiteId.bytes,
          ascii "--suite-run-id", run.bytes]) ∧
        t = ⟨env.assign (ascii "suite_run_id", run.bytes), files⟩ := by
  simp only [testVariables, List.forall_mem_cons] at henv
  obtain ⟨-, -, -, -, hsuite, harn, hcertArn, -⟩ := henv
  have hstart := expand_startSuiteRunLine (hsuite.trans hs.daSuite) (harn.trans hs.thingArn)
    (hcertArn.trans hs.certificateArn)
  have hwordy : ∀ word : Word, words word.bytes = [word.bytes] :=
    fun word => Wordy.words word.mem_ok word.ne_nil
  -- the run id is assigned between the two commands and leaves the suite id as it was
  have hargs : ∀ run : Word,
      suiteRunArguments ([ascii "$\x7bda_suite\x7d", ascii "$\x7bsuite_run_id\x7d"].flatMap
        (words <| expand (env.assign (ascii "suite_run_id", run.bytes)) ·)) =
      [ascii "--suite-definition-id", d.myappDaSuiteId.bytes, ascii "--suite-run-id",
        run.bytes] := by
    intro run
    have hne : ascii "da_suite" ≠ ascii "suite_run_id" := by decide
    have hda : env.assign (ascii "suite_run_id", run.bytes) (ascii "da_suite") =
        some d.myappDaSuiteId.bytes :=
      (Function.update_of_ne hne _ _).trans (hsuite.trans hs.daSuite)
    have hrun : env.assign (ascii "suite_run_id", run.bytes) (ascii "suite_run_id") =
        some run.bytes := Function.update_self _ _ _
    have hexpandSuite : expand (env.assign (ascii "suite_run_id", run.bytes))
        (ascii "$\x7bda_suite\x7d") = d.myappDaSuiteId.bytes := expand_braces (by decide) hda
    have hexpandRun : expand (env.assign (ascii "suite_run_id", run.bytes))
        (ascii "$\x7bsuite_run_id\x7d") = run.bytes := expand_braces (by decide) hrun
    simp [suiteRunArguments, hexpandSuite, hexpandRun, hwordy]
  have houtput : ∀ run : Word, outputOf (some run.bytes) = run.bytes :=
    fun run => Wordy.output run.mem_ok
  simp only [Run, Command.Succeeds, hstart, exits_zero_iff]
  constructor
  · rintro ⟨u, ⟨run, hout, rfl⟩, v, ⟨hpass, rfl⟩, rfl⟩
    simp only [houtput, hargs] at hpass ⊢
    exact ⟨run, hout, hpass, rfl⟩
  · rintro ⟨run, hout, hpass, rfl⟩
    refine ⟨_, ⟨run, hout, rfl⟩, _, ⟨?_, rfl⟩, ?_⟩
    · simpa only [houtput, hargs] using hpass
    · rw [houtput]

theorem run_testCommands {env : Env} (hs : DeviceSecret (d.options home mydevice) r i secretString)
    (henv : ∀ v ∈ testVariables, env v.1 = FlatJson.field v.2 secretString) {w : World}
    {files : Files} {t : Build} : Run w testCommands ⟨env, files⟩ t ↔
      (∀ line ∈ testSetUp ++ testDemo, w.succeeds (expand env line) = true) ∧
      ∃ run : Word, w.output (suiteRunOf d.myappDaSuiteId.bytes r.thingArn.word.bytes
          i.certificateArn.word.bytes) = some run ∧
        PassesFirst (w.getSuiteRun [ascii "--suite-definition-id", d.myappDaSuiteId.bytes,
          ascii "--suite-run-id", run.bytes]) ∧
        (∀ line ∈ testFinish,
          w.succeeds (expand (env.assign (ascii "suite_run_id", run.bytes)) line) = true) ∧
        t = ⟨env.assign (ascii "suite_run_id", run.bytes), deviceFiles i files⟩ := by
  have hfields := henv
  simp only [testVariables, List.forall_mem_cons] at hfields
  obtain ⟨hcert, hkey, -⟩ := hfields
  rw [testCommands]
  simp only [run_append, run_lines, List.forall_mem_append]
  constructor
  · rintro ⟨u, ⟨v, ⟨v', ⟨v'', ⟨hsetUp, rfl⟩, hv⟩, hdemo, rfl⟩, hu⟩, hfinish, rfl⟩
    obtain rfl := (run_decodeFiles hs hcert hkey).mp hv
    obtain ⟨run, hout, hpass, rfl⟩ := (run_monitor hs henv).mp hu
    exact ⟨⟨hsetUp, hdemo⟩, run, hout, hpass, hfinish, rfl⟩
  · rintro ⟨⟨hsetUp, hdemo⟩, run, hout, hpass, hfinish, rfl⟩
    have hdecode : Run w decodeFiles ⟨env, files⟩ ⟨env, deviceFiles i files⟩ :=
      (run_decodeFiles hs hcert hkey).mpr rfl
    exact ⟨_, ⟨_, ⟨_, ⟨_, ⟨hsetUp, rfl⟩, hdecode⟩, hdemo, rfl⟩,
      (run_monitor hs henv).mpr ⟨run, hout, hpass, rfl⟩⟩, hfinish, rfl⟩

theorem testsDevice {env : Env} (hs : DeviceSecret (d.options home mydevice) r i secretString)
    (henv : ∀ v ∈ testVariables, env v.1 = FlatJson.field v.2 secretString) :
    TestsDevice d r i env where
  files w files t h := by
    obtain ⟨-, run, -, -, -, rfl⟩ := (run_testCommands hs henv).mp h
    rfl
  passes w files := by
    constructor
    · rintro ⟨t, ht⟩
      obtain ⟨hlines, run, hout, hpass, hfinish, -⟩ := (run_testCommands hs henv).mp ht
      exact ⟨hlines, run, hout, hpass, hfinish⟩
    · rintro ⟨hlines, run, hout, hpass, hfinish⟩
      exact ⟨_, (run_testCommands hs henv).mpr ⟨hlines, run, hout, hpass, hfinish, rfl⟩⟩

end Stages

/-- The bootstrap gives the credential script the options of the stack, and if the thing and its
certificate are created, both builds get their environment from its secret: one makes the image of
this device, for the Device Advisor endpoint if that was described, and the other lets it through if
and only if its own suite run passes. -/
theorem pipeline_tests_device {r : Replies} {i : Issued}
    (hi : r.createKeysAndCertificate = some i) (hthing : r.createThing = true) (d : Deployment)
    (home mydevice : Word) (env base : Env) (dirname : List Byte) (files : Files)
    (stdin : List Byte) :
    (∃ args, d.arguments = some args ∧
      readOptions (initial env dirname) (initializeSelfDirected home mydevice args) =
        .ok (variablesOf (d.options home mydevice))) ∧
    ∃ secretString files', createIotCredential (d.options home mydevice) r files stdin =
        .secret true d.secretName secretString files' ∧
      ∃ build test, environment base buildVariables secretString = some build ∧
        environment base testVariables secretString = some test ∧
        BuildsDevice d r i build ∧ TestsDevice d r i test := by
  have hsuite : Wordy d.myappDaSuiteId.bytes := d.myappDaSuiteId.mem_ok
  obtain ⟨secretString, files', heq, hs⟩ : ∃ secretString files',
      createIotCredential (d.options home mydevice) r files stdin =
        .secret true d.secretName secretString files' ∧
      DeviceSecret (d.options home mydevice) r i secretString :=
    deviceSecret hi hthing rfl hsuite.plain rfl
  refine ⟨initializeSelfDirected_read d home mydevice env dirname, secretString, files', heq, ?_⟩
  have hkeys : ∀ key ∈ [ascii "certificate", ascii "privatekey", ascii "iotcore_endpoint",
      ascii "da_endpoint", ascii "da_suite", ascii "thing_name", ascii "thing_arn",
      ascii "certificate_arn"], (FlatJson.field key secretString).isSome = true := by
    obtain ⟨x, hx, -⟩ := Option.bind_eq_some_iff.mp hs.certificate
    obtain ⟨y, hy, -⟩ := Option.bind_eq_some_iff.mp hs.privatekey
    simp only [List.forall_mem_cons]
    rw [hx, hy, hs.daEndpoint, hs.daSuite, hs.thingName, hs.thingArn, hs.certificateArn]
    exact ⟨rfl, rfl, hs.iotcoreEndpoint, rfl, rfl, rfl, rfl, rfl, by simp⟩
  have hbuild : ∀ v ∈ buildVariables, (FlatJson.field v.2 secretString).isSome = true :=
    fun v hv => hkeys v.2 (by revert v; decide)
  have htest : ∀ v ∈ testVariables, (FlatJson.field v.2 secretString).isSome = true :=
    fun v hv => hkeys v.2 (by revert v; decide)
  obtain ⟨build, hbuildEnv, hbuildFields⟩ := environment_of_fields base (by decide) hbuild
  obtain ⟨test, htestEnv, htestFields⟩ := environment_of_fields base (by decide) htest
  exact ⟨build, test, hbuildEnv, htestEnv, buildsDevice hs hbuildFields, testsDevice hs htestFields⟩

def lamp : Deployment where
  myappRepo := ⟨ascii "https://repo", by decide, by decide⟩
  myappDaSuiteId := ⟨ascii "suite", by decide, by decide⟩
  thingName := ⟨ascii "lamp", by decide, by decide⟩
  secretName := ⟨ascii "arn:secret", by decide, by decide⟩
  literal := by decide

/-- No tool fails, and the suite run passes at the second poll. -/
def passing : World where
  succeeds _ := true
  output _ := some ⟨ascii "run", by decide, by decide⟩
  getSuiteRun args n :=
    if args =
        [ascii "--suite-definition-id", ascii "suite", ascii "--suite-run-id", ascii "run"] then
      some { status := some (if n = 0 then Status.running.text else Status.pass.text)
             groups := some [] }
    else none

/-- The image is made for the endpoint `d`, and the device is let through. -/
theorem pipeline_tests_device_passing :
    ∃ secretString build test t, environment (fun _ => none) buildVariables secretString =
        some build ∧ expand build cmakeLine = configuredFor (ascii "d") (ascii "lamp") ∧
      environment (fun _ => none) testVariables secretString = some test ∧
      Run passing testCommands ⟨test, fun _ => none⟩ t ∧
      t.files (ascii "/etc/cert.pem") = some (ascii "crt") := by
  have hi : issuedKeys.createKeysAndCertificate = some someIssued := rfl
  obtain ⟨-, secretString, -, -, build, test, hbuild, htest, hbuilds, htests⟩ :=
    pipeline_tests_device hi rfl lamp ⟨ascii "/home", by decide, by decide⟩
      ⟨ascii "uuid", by decide, by decide⟩ (fun _ => none) (fun _ => none) (ascii "scripts")
      (fun _ => none) []
  have hpass : PassesFirst (passing.getSuiteRun [ascii "--suite-definition-id", ascii "suite",
      ascii "--suite-run-id", ascii "run"]) := by
    refine ⟨1, overallStatus_of_status rfl, fun n hn st hst => ?_⟩
    obtain rfl : n = 0 := by omega
    have hrunning : (passing.getSuiteRun [ascii "--suite-definition-id", ascii "suite",
        ascii "--suite-run-id", ascii "run"] 0).overallStatus = Status.running.text :=
      overallStatus_of_status rfl
    rw [← text_injective (hrunning.symm.trans hst)]
    rfl
  obtain ⟨t, ht⟩ := (htests.passes passing fun _ => none).mpr
    ⟨fun _ _ => rfl, _, rfl, hpass, fun _ _ => rfl⟩
  refine ⟨secretString, build, test, t, hbuild, hbuilds.configured _ rfl, htest, ht, ?_⟩
  rw [htests.files _ _ _ ht]
  decide

end Stm32f7Renode.Pipeline
