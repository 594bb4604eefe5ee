import Stm32f7Renode.Library.Base64
import Stm32f7Renode.Library.FlatJson
import Stm32f7Renode.Library.Shell

/-!
`create-iot-credential.sh` up to the secret it stores, for any success or
failure of its calls. A failed call leaves an empty variable, and the unquoted
empty variable shifts the arguments of `store_secret`.
-/

namespace Stm32f7Renode.Credential
open WireText Shell

structure Token (ok : Byte → Bool) where
  bytes : List Byte
  ne_nil : bytes ≠ []
  all_ok : bytes.all ok = true
deriving DecidableEq

theorem Token.mem_ok {ok : Byte → Bool} (t : Token ok) : ∀ b ∈ t.bytes, ok b = true :=
  List.all_eq_true.mp t.all_ok

/-- Printable characters but those of pathname expansion and those that JSON escapes. -/
def isWordByte (b : Byte) : Bool :=
  decide (0x20 < b) && decide (b < 0x7f) && !(ascii "*?[\"\\").contains b

def thingBytes : List Byte :=
  ascii "abcdefghijklmnopqrstuvwxyzABCDEFGHIJKLMNOPQRSTUVWXYZ0123456789:_-"

def isThingByte (b : Byte) : Bool := thingBytes.contains b

abbrev Word := Token isWordByte

abbrev ThingName := Token isThingByte

structure Arn where
  word : Word
  isArn : ascii "arn:" <+: word.bytes

/-- The options of the script; `none` is an empty variable. -/
structure Options where
  volatileDir : Word
  thingName : ThingName
  policyName : Word
  policyFile : Option Word
  secretName : Option Word
  /-- Any text. -/
  suiteId : List Byte
  force : Bool
  secretUpdate : Bool

structure Issued where
  certificateArn : Arn
  certificatePem : List Byte
  publicKey : List Byte
  privateKey : List Byte

abbrev Entry := List Byte × Arn

/-- The document that a list call returns: its entries under one key. -/
structure Listing where
  key : List Byte
  entries : List Entry

/-- What each call returns; `none` or `false` is a failure. Two list calls of one kind may differ
in what they return. -/
structure Replies where
  createKeysAndCertificate : Option Issued
  thingArn : Arn
  createThing : Bool
  listThings : Option (List Entry)
  listThingsAgain : Option (List Entry)
  listPolicies : Option (List Entry)
  listPoliciesAgain : Option (List Entry)
  createPolicy : Option Arn
  describeIotcoreEndpoint : Option Word
  describeDaEndpoint : Option Word

abbrev Files := List Byte → Option (List Byte)

/-- The variable assigned from a call that prints one line, or nothing when it fails. -/
def outputOf (reply : Option (List Byte)) : List Byte :=
  commandSubstitution (match reply with
    | none => []
    | some line => line ++ [newline])

/-- `--query "key[?name=='…'].field"` with text output: the matches, separated by tabs, or
`None` when the document lacks the key. -/
def query (l : Listing) (key name : List Byte) (field : Entry → List Byte) : List Byte :=
  if l.key = key then [0x09].intercalate ((l.entries.filter fun e => e.1 = name).map field)
  else ascii "None"

def thingsKey : List Byte := ascii "things"

def policiesKey : List Byte := ascii "policies"

def thingExists (o : Options) (listThings : Option (List Entry)) : Bool :=
  let result := outputOf (listThings.map fun things =>
    query ⟨thingsKey, things⟩ thingsKey o.thingName.bytes Prod.fst)
  result != []

/-- The query asks for the key of the policies. -/
def getThingArn (o : Options) (listThings : Option (List Entry)) : Option (List Byte) :=
  listThings.map fun things =>
    outputOf (some (query ⟨thingsKey, things⟩ policiesKey o.thingName.bytes
      fun e => e.2.word.bytes))

def createThing (r : Replies) : Option (List Byte) :=
  if r.createThing then some (outputOf (some r.thingArn.word.bytes)) else none

def policyExists (o : Options) (listPolicies : Option (List Entry)) : Bool :=
  let result := outputOf (listPolicies.map fun policies =>
    query ⟨policiesKey, policies⟩ policiesKey o.policyName.bytes Prod.fst)
  result != []

def getPolicyArn (o : Options) (listPolicies : Option (List Entry)) : Option (List Byte) :=
  listPolicies.map fun policies =>
    outputOf (some (query ⟨policiesKey, policies⟩ policiesKey o.policyName.bytes
      fun e => e.2.word.bytes))

def createPolicy (r : Replies) : Option (List Byte) :=
  r.createPolicy.map fun arn => outputOf (some arn.word.bytes)

def resolveThing (o : Options) (r : Replies) : Except (List Byte) (List Byte) :=
  if !o.force && thingExists o r.listThings then
    match getThingArn o r.listThingsAgain with
    | some thingArn => .ok thingArn
    | none => .error (ascii "failed to fetch thing arn.")
  else
    match createThing r with
    | some thingArn => .ok thingArn
    | none => .error (ascii "failed to create thing object.")

/-- What the policy step leaves of the standard input: without a policy file, the `sed` of
`create_policy` reads it to its end. -/
def stdinAfterPolicy (o : Options) (r : Replies) (stdin : List Byte) : List Byte :=
  if !o.force && policyExists o r.listPolicies then stdin
  else if o.policyFile.isSome then stdin
  else []

def resolvePolicy (o : Options) (r : Replies) : Except (List Byte) (List Byte) :=
  if !o.force && policyExists o r.listPolicies then
    match getPolicyArn o r.listPoliciesAgain with
    | some policyArn => .ok policyArn
    | none => .error (ascii "failed to fetch policy arn.")
  else
    match createPolicy r with
    | some policyArn => .ok policyArn
    -- with `-F`, a failure is taken for a policy that is there
    | none => if o.force then .ok [] else .error (ascii "failed to create policy object.")

def Options.file (o : Options) (suffix : List Byte) : List Byte :=
  o.volatileDir.bytes ++ ascii "/" ++ o.thingName.bytes ++ ascii "/" ++ o.thingName.bytes ++ suffix

def Options.certificateFile (o : Options) : List Byte := o.file (ascii ".crt.pem")

def Options.pubkeyFile (o : Options) : List Byte := o.file (ascii ".key.pub.pem")

def Options.privkeyFile (o : Options) : List Byte := o.file (ascii ".key.prv.pem")

/-- `CERTIFICATE_ARN` and the files after the call, whose status nobody looks at. -/
def createCertificateDevmode (o : Options) (r : Replies) (files : Files) : List Byte × Files :=
  (outputOf (r.createKeysAndCertificate.map fun i => i.certificateArn.word.bytes),
    match r.createKeysAndCertificate with
    | none => files
    | some i =>
      Function.update (Function.update (Function.update files
        o.certificateFile (some i.certificatePem)) o.pubkeyFile (some i.publicKey))
        o.privkeyFile (some i.privateKey))

/-- `base64 --wrap=0`: without an operand it reads the standard input, and a file that is not
there gives no output. -/
def base64 (files : Files) (stdin : List Byte) : List (List Byte) → List Byte
  | [] => Base64.encode stdin
  | [file] => ((files file).map Base64.encode).getD []
  | _ => []

def heredoc : FlatJson.Layout where
  afterOpen := ascii " "
  beforeColon := ascii " "
  afterColon := ascii " "
  afterComma := ascii "\n  "
  beforeClose := ascii "\n"
  afterClose := ascii "\n"
  blank := by decide

example : FlatJson.render heredoc [(ascii "thing_name", ascii "t"), (ascii "da_suite", [])] =
    ascii "\x7b \"thing_name\" : \"t\",\n  \"da_suite\" : \"\"\n\x7d\n" := by
  decide

/-- The members of the secret that `store_secret` builds from its arguments. -/
def secretMembers (o : Options) (r : Replies) (files : Files) (stdin : List Byte)
    (args : List (List Byte)) : List FlatJson.Member :=
  let thingName := args.getD 0 []
  let thingArn := args.getD 1 []
  let certificateArn := args.getD 2 []
  let certificateFile := args.getD 3 []
  let privatekeyFile := args.getD 4 []
  let iotcoreEndpoint := args.getD 5 []
  let daEndpoint := outputOf (r.describeDaEndpoint.map Token.bytes)
  let daSuite := o.suiteId
  let certificate := commandSubstitution (base64 files stdin (words certificateFile))
  let privatekey := commandSubstitution (base64 files stdin (words privatekeyFile))
  [(ascii "thing_name", thingName),
    (ascii "thing_arn", thingArn),
    (ascii "certificate", certificate),
    (ascii "certificate_arn", certificateArn),
    (ascii "privatekey", privatekey),
    (ascii "iotcore_endpoint", iotcoreEndpoint),
    (ascii "da_endpoint", daEndpoint),
    (ascii "da_suite", daSuite)]

inductive Outcome
  | exited (message : List Byte)
  | noSecret
  | secret (update : Bool) (secretName : Word) (secretString : List Byte) (files : Files)

/-- The main sequence. The status of `link_objects` is not looked at. -/
def createIotCredential (o : Options) (r : Replies) (files : Files) (stdin : List Byte) : Outcome :=
  let (certificateArn, files) := createCertificateDevmode o r files
  match resolveThing o r with
  | .error message => .exited message
  | .ok thingArn =>
    match resolvePolicy o r with
    | .error message => .exited message
    | .ok _ =>
      let stdin := stdinAfterPolicy o r stdin
      let iotcoreEndpoint := outputOf (r.describeIotcoreEndpoint.map Token.bytes)
      match o.secretName with
      | none => .noSecret
      | some secretName =>
        -- the arguments are unquoted
        let args := [o.thingName.bytes, thingArn, certificateArn, o.certificateFile, o.privkeyFile,
          iotcoreEndpoint].flatMap words
        .secret o.secretUpdate secretName
          (FlatJson.render heredoc (secretMembers o r files stdin args)) files

/-- `echo ${x} | base64 -d` in the build. -/
def buildDecode (x : List Byte) : Option (List Byte) := Base64.decode (echo (words x))

/-- The secret holds the ARNs of this run's thing and certificate and, for the build to decode,
the bytes of the certificate and private-key files. -/
structure Handover (o : Options) (r : Replies) (secretString : List Byte) (files : Files) :
    Prop where
  thingArn : FlatJson.field (ascii "thing_arn") secretString = some r.thingArn.word.bytes
  certificateArn : ∃ i, r.createKeysAndCertificate = some i ∧
    FlatJson.field (ascii "certificate_arn") secretString = some i.certificateArn.word.bytes
  certificate : ∃ bytes, files o.certificateFile = some bytes ∧
    (FlatJson.field (ascii "certificate") secretString).bind buildDecode = some bytes
  privatekey : ∃ bytes, files o.privkeyFile = some bytes ∧
    (FlatJson.field (ascii "privatekey") secretString).bind buildDecode = some bytes

def handoverKeys : List (List Byte) :=
  [ascii "thing_arn", ascii "certificate_arn", ascii "certificate", ascii "privatekey"]

/-- The suite id, which the script pastes between quotes as it is, leaves the secret readable and
brings no second member with a key of the hand-over. -/
def suiteFits (suiteId : List Byte) : Bool :=
  (FlatJson.read (FlatJson.render heredoc [(ascii "da_suite", suiteId)])).any fun ms =>
    ms.all fun m => !handoverKeys.contains m.1

example : suiteFits (ascii "a\\tb") = true ∧ suiteFits (ascii "a\"b") = false ∧
    suiteFits (ascii "\", \"x\" : \"") = true ∧
    suiteFits (ascii "\", \"thing_arn\" : \"") = false := by
  decide +kernel

def HandoverFaithful (o : Options) (r : Replies) (files : Files) (stdin : List Byte) : Prop :=
  ∀ update secretName secretString files',
    createIotCredential o r files stdin = .secret update secretName secretString files' →
      Handover o r secretString files'

/-- Text that no expansion changes and that JSON takes as it is. -/
def Wordy (text : List Byte) : Prop := ∀ b ∈ text, isWordByte b = true

instance (text : List Byte) : Decidable (Wordy text) :=
  decidable_of_iff (text.all isWordByte = true) List.all_eq_true

theorem wordByte_facts {b : Byte} (h : isWordByte b = true) :
    isBlank b = false ∧ FlatJson.isPlain b = true ∧ b ≠ 0 ∧ b ≠ newline := by
  revert b
  apply forall_byte
  decide +kernel

theorem wordy_thingBytes : Wordy thingBytes := by decide +kernel

theorem wordByte_of_thingByte {b : Byte} (h : isThingByte b = true) : isWordByte b = true := by
  apply wordy_thingBytes
  exact List.contains_iff_mem.mp h

theorem wordy_thingName (name : ThingName) : Wordy name.bytes :=
  fun b hb => wordByte_of_thingByte (name.mem_ok b hb)

theorem Wordy.append {s t : List Byte} (hs : Wordy s) (ht : Wordy t) : Wordy (s ++ t) :=
  fun b hb => (List.mem_append.mp hb).elim (hs b) (ht b)

theorem Wordy.words {text : List Byte} (h : Wordy text) (hne : text ≠ []) : words text = [text] :=
  words_of_no_blank hne fun b hb => (wordByte_facts (h b hb)).1

theorem Wordy.plain {text : List Byte} (h : Wordy text) : ∀ b ∈ text, FlatJson.isPlain b = true :=
  fun b hb => (wordByte_facts (h b hb)).2.1

theorem Wordy.zero_not_mem {text : List Byte} (h : Wordy text) : 0 ∉ text :=
  fun hb => (wordByte_facts (h 0 hb)).2.2.1 rfl

theorem Wordy.newline_not_mem {text : List Byte} (h : Wordy text) : newline ∉ text :=
  fun hb => (wordByte_facts (h newline hb)).2.2.2 rfl

theorem Wordy.output {text : List Byte} (h : Wordy text) : outputOf (some text) = text :=
  commandSubstitution_line h.zero_not_mem h.newline_not_mem

theorem outputOf_none : outputOf none = [] := by decide

theorem wordy_outputOf {reply : Option (List Byte)} (h : ∀ t ∈ reply, Wordy t) :
    Wordy (outputOf reply) := by
  cases reply with
  | none =>
    rw [outputOf_none]
    simp [Wordy]
  | some t =>
    rw [(h t rfl).output]
    exact h t rfl

theorem flatMap_words {ts : List (List Byte)} (h : ∀ t ∈ ts, Wordy t) :
    ts.flatMap words = ts.filter (· ≠ []) := by
  induction ts with
  | nil => rfl
  | cons t ts ih =>
    have hts := ih fun u hu => h u (List.mem_cons_of_mem _ hu)
    by_cases hne : t = []
    · simp [hne, hts]
    · simp [hne, hts, (h t List.mem_cons_self).words hne]

theorem wordy_encode (bytes : List Byte) : Wordy (Base64.encode bytes) :=
  Base64.forall_mem_encode (by decide +kernel)

theorem buildDecode_encode (bytes : List Byte) :
    buildDecode (Base64.encode bytes) = some bytes := by
  have hblank : ∀ b ∈ Base64.encode bytes, isBlank b = false :=
    fun b hb => (wordByte_facts (wordy_encode bytes b hb)).1
  rw [buildDecode, echo_words_of_no_blank hblank]
  exact Base64.decode_encode_newline bytes

theorem wordy_base64 (files : Files) (stdin : List Byte) (operands : List (List Byte)) :
    Wordy (base64 files stdin operands) := by
  unfold base64
  split
  · exact wordy_encode stdin
  · rename_i file
    cases files file with
    | none => simp [Wordy]
    | some bytes => exact wordy_encode bytes
  · simp [Wordy]

theorem Wordy.commandSubstitution {text : List Byte} (h : Wordy text) :
    commandSubstitution text = text :=
  commandSubstitution_of_clean h.zero_not_mem h.newline_not_mem

theorem wordy_file (o : Options) {suffix : List Byte} (h : Wordy suffix) :
    Wordy (o.file suffix) := by
  have hslash : Wordy (ascii "/") := by decide
  have hname := wordy_thingName o.thingName
  have hdir : Wordy (o.volatileDir.bytes ++ ascii "/") := Wordy.append o.volatileDir.mem_ok hslash
  exact (((hdir.append hname).append hslash).append hname).append h

theorem file_injective {o : Options} {s t : List Byte} (h : o.file s = o.file t) : s = t :=
  List.append_cancel_left h

theorem wordy_getD {ts : List (List Byte)} (h : ∀ t ∈ ts, Wordy t) (i : ℕ) :
    Wordy (ts.getD i []) := by
  rw [List.getD_eq_getElem?_getD]
  cases ht : ts[i]? with
  | none => simp [Wordy]
  | some t => exact h t (List.mem_of_getElem? ht)

theorem wordy_option (t : Option Word) : ∀ bytes ∈ t.map Token.bytes, Wordy bytes := by
  intro bytes hb
  obtain ⟨w, -, rfl⟩ := Option.map_eq_some_iff.mp hb
  exact w.mem_ok

theorem secretMembers_plain (o : Options) (r : Replies) (files : Files) (stdin : List Byte)
    {args : List (List Byte)} (h : ∀ t ∈ args, Wordy t) :
    ∀ m ∈ (secretMembers o r files stdin args).dropLast, m.Plain := by
  have hcs : ∀ operands, Wordy (commandSubstitution (base64 files stdin operands)) := by
    intro operands
    have hb := wordy_base64 files stdin operands
    rwa [hb.commandSubstitution]
  have hkeys : ∀ m ∈ (secretMembers o r files stdin args).dropLast, Wordy m.1 := by
    simp only [secretMembers, List.dropLast, List.forall_mem_cons]
    decide
  have hvalues : ∀ m ∈ (secretMembers o r files stdin args).dropLast, Wordy m.2 := by
    simp only [secretMembers, List.dropLast, List.forall_mem_cons]
    exact ⟨wordy_getD h 0, wordy_getD h 1, hcs _, wordy_getD h 2, hcs _, wordy_getD h 5,
      wordy_outputOf (wordy_option _), by simp⟩
  exact fun m hm => ⟨(hkeys m hm).plain, (hvalues m hm).plain⟩

theorem suiteKey_plain : ∀ b ∈ ascii "da_suite", FlatJson.isPlain b = true :=
  List.all_eq_true.mp (by decide)

theorem secretMembers_eq_append (o : Options) (r : Replies) (files : Files) (stdin : List Byte)
    (args : List (List Byte)) :
    secretMembers o r files stdin args =
      (secretMembers o r files stdin args).dropLast ++ [(ascii "da_suite", o.suiteId)] := rfl

/-- What is read of the secret: its members, and behind them what is read of the suite id. -/
theorem read_secret (o : Options) (r : Replies) (files : Files) (stdin : List Byte)
    {args : List (List Byte)} (h : ∀ t ∈ args, Wordy t) :
    FlatJson.read (FlatJson.render heredoc (secretMembers o r files stdin args)) =
      (FlatJson.read (FlatJson.render heredoc [(ascii "da_suite", o.suiteId)])).map
        ((secretMembers o r files stdin args).dropLast.map FlatJson.Member.stored ++ ·) := by
  rw [← FlatJson.read_render_last (secretMembers_plain o r files stdin h) suiteKey_plain
    o.suiteId, ← secretMembers_eq_append]

def storeArgs (o : Options) (r : Replies) (thingArn : List Byte) : List (List Byte) :=
  [o.thingName.bytes, thingArn, outputOf (r.createKeysAndCertificate.map
      fun i => i.certificateArn.word.bytes), o.certificateFile, o.privkeyFile,
    outputOf (r.describeIotcoreEndpoint.map Token.bytes)].flatMap words

def listed (name : List Byte) (reply : Option (List Entry)) : Bool :=
  reply.any fun entries => entries.any fun e => e.1 = name

def looksThingUp (o : Options) (r : Replies) : Bool :=
  !o.force && listed o.thingName.bytes r.listThings

def thingResolved (o : Options) (r : Replies) : Bool :=
  if looksThingUp o r then r.listThingsAgain.isSome else r.createThing

def policyResolved (o : Options) (r : Replies) : Bool :=
  if !o.force && listed o.policyName.bytes r.listPolicies then r.listPoliciesAgain.isSome
  else o.force || r.createPolicy.isSome

def reachesSecret (o : Options) (r : Replies) : Bool :=
  o.secretName.isSome && thingResolved o r && policyResolved o r

theorem output_query_names {key name : List Byte} (hne : name ≠ []) (hw : Wordy name)
    (reply : Option (List Entry)) :
    (outputOf (reply.map fun entries => query ⟨key, entries⟩ key name Prod.fst) != []) =
      listed name reply := by
  cases reply with
  | none =>
    rw [Option.map_none, outputOf_none]
    rfl
  | some entries =>
    have hmem : ∀ e ∈ entries.filter (fun e => e.1 = name), e.1 = name := fun e he => by
      simpa using (List.mem_filter.mp he).2
    cases hf : entries.filter (fun e => e.1 = name) with
    | nil =>
      have hnone : listed name (some entries) = false := by
        simpa [listed, List.filter_eq_nil_iff] using hf
      simp only [Option.map_some, query, hf, if_true, List.map_nil, hnone]
      decide
    | cons e es =>
      have he : e.1 = name := hmem e (hf ▸ List.mem_cons_self)
      have hsome : listed name (some entries) = true := by
        have hin : e ∈ entries := (List.mem_filter.mp (hf ▸ List.mem_cons_self)).1
        simpa [listed] using ⟨e.2, he ▸ hin⟩
      obtain ⟨b, bs, hb⟩ := List.exists_cons_of_ne_nil hne
      have hbyte := wordByte_facts (hw b (hb ▸ List.mem_cons_self))
      -- the text starts with the first byte of the name
      obtain ⟨rest, hrest⟩ : ∃ rest, query ⟨key, entries⟩ key name Prod.fst = b :: rest := by
        rw [query, if_pos rfl, hf, List.map_cons, he, hb]
        cases es.map Prod.fst <;> simp [List.intercalate]
      rw [Option.map_some, hrest, hsome]
      exact bne_iff_ne.mpr (commandSubstitution_ne_nil hbyte.2.2.1 hbyte.2.2.2)

theorem thingExists_eq (o : Options) (reply : Option (List Entry)) :
    thingExists o reply = listed o.thingName.bytes reply :=
  output_query_names o.thingName.ne_nil (wordy_thingName _) reply

theorem policyExists_eq (o : Options) (reply : Option (List Entry)) :
    policyExists o reply = listed o.policyName.bytes reply :=
  output_query_names o.policyName.ne_nil o.policyName.mem_ok reply

theorem resolveThing_eq (o : Options) (r : Replies) (h : thingResolved o r = true) :
    resolveThing o r =
      .ok (if looksThingUp o r then ascii "None" else r.thingArn.word.bytes) := by
  have hnone : ∀ things name, outputOf (some (query ⟨thingsKey, things⟩ policiesKey name
      fun e => e.2.word.bytes)) = ascii "None" := by
    intro things name
    rw [query, if_neg (by decide : thingsKey ≠ policiesKey)]
    decide
  rw [resolveThing, thingExists_eq]
  by_cases hl : looksThingUp o r = true
  · rw [thingResolved, if_pos hl] at h
    obtain ⟨things, hthings⟩ := Option.isSome_iff_exists.mp h
    have hl' : (!o.force && listed o.thingName.bytes r.listThings) = true := hl
    rw [if_pos hl', if_pos hl]
    simp [getThingArn, hthings, hnone]
  · rw [thingResolved, if_neg hl] at h
    have hl' : ¬ (!o.force && listed o.thingName.bytes r.listThings) = true := hl
    have harn : Wordy r.thingArn.word.bytes := r.thingArn.word.mem_ok
    rw [if_neg hl', if_neg hl]
    simp [createThing, h, harn.output]

theorem resolveThing_error (o : Options) (r : Replies) (h : thingResolved o r = false) :
    ∃ message, resolveThing o r = .error message := by
  rw [resolveThing, thingExists_eq]
  by_cases hl : (!o.force && listed o.thingName.bytes r.listThings) = true
  · rw [thingResolved, looksThingUp, if_pos hl] at h
    have hthings : r.listThingsAgain = none := by simpa using h
    rw [if_pos hl]
    exact ⟨_, by rw [hthings]; rfl⟩
  · rw [thingResolved, looksThingUp, if_neg hl] at h
    rw [if_neg hl]
    exact ⟨ascii "failed to create thing object.", by simp [createThing, h]⟩

theorem resolvePolicy_isOk (o : Options) (r : Replies) :
    (∃ policyArn, resolvePolicy o r = .ok policyArn) ↔ policyResolved o r = true := by
  rw [resolvePolicy, policyExists_eq, policyResolved]
  by_cases hl : (!o.force && listed o.policyName.bytes r.listPolicies) = true
  · rw [if_pos hl, if_pos hl]
    cases hp : r.listPoliciesAgain <;> simp [getPolicyArn]
  · rw [if_neg hl, if_neg hl]
    cases hp : r.createPolicy <;> cases hf : o.force <;> simp [createPolicy, hp]

theorem createIotCredential_eq {o : Options} {r : Replies} (files : Files) (stdin : List Byte)
    (h : reachesSecret o r = true) :
    ∃ secretName, createIotCredential o r files stdin =
      .secret o.secretUpdate secretName
        (FlatJson.render heredoc (secretMembers o r (createCertificateDevmode o r files).2
          (stdinAfterPolicy o r stdin)
          (storeArgs o r (if looksThingUp o r then ascii "None" else r.thingArn.word.bytes))))
        (createCertificateDevmode o r files).2 := by
  simp only [reachesSecret, Bool.and_eq_true] at h
  obtain ⟨secretName, hs⟩ := Option.isSome_iff_exists.mp h.1.1
  obtain ⟨policyArn, hp⟩ := (resolvePolicy_isOk o r).mpr h.2
  refine ⟨secretName, ?_⟩
  simp only [createIotCredential, resolveThing_eq o r h.1.2, hp, hs]
  rfl

theorem reachesSecret_of_secret {o : Options} {r : Replies} {files : Files} {stdin : List Byte}
    {update : Bool} {secretName : Word} {secretString : List Byte} {files' : Files}
    (h : createIotCredential o r files stdin = .secret update secretName secretString files') :
    reachesSecret o r = true := by
  simp only [createIotCredential] at h
  split at h
  · cases h
  · rename_i thingArn ht
    have hthing : thingResolved o r = true := by
      by_contra hn
      obtain ⟨message, he⟩ := resolveThing_error o r (Bool.eq_false_iff.mpr hn)
      exact absurd (ht.symm.trans he) (by simp)
    split at h
    · cases h
    · rename_i policyArn hp
      have hpolicy := (resolvePolicy_isOk o r).mp ⟨policyArn, hp⟩
      split at h
      · cases h
      · rename_i name hs
        simp [reachesSecret, hs, hthing, hpolicy]

section Fields

variable {o : Options} {r : Replies} {files : Files} {stdin thingArn : List Byte}

theorem file_ne_nil (suffix : List Byte) : o.file suffix ≠ [] := by
  simp [Options.file, o.volatileDir.ne_nil]

theorem storeArgs_eq (ht : Wordy thingArn) :
    storeArgs o r thingArn = [o.thingName.bytes, thingArn, outputOf
      (r.createKeysAndCertificate.map fun i => i.certificateArn.word.bytes), o.certificateFile,
      o.privkeyFile, outputOf (r.describeIotcoreEndpoint.map Token.bytes)].filter (· ≠ []) ∧
    ∀ t ∈ storeArgs o r thingArn, Wordy t := by
  have hcert : Wordy (outputOf (r.createKeysAndCertificate.map
      fun i => i.certificateArn.word.bytes)) := by
    refine wordy_outputOf fun t hi => ?_
    obtain ⟨i, -, rfl⟩ := Option.map_eq_some_iff.mp hi
    exact i.certificateArn.word.mem_ok
  have hendpoint := wordy_outputOf (wordy_option r.describeIotcoreEndpoint)
  have hcrt : Wordy o.certificateFile := wordy_file o (by decide)
  have hprv : Wordy o.privkeyFile := wordy_file o (by decide)
  have hall : ∀ t ∈ [o.thingName.bytes, thingArn, outputOf
      (r.createKeysAndCertificate.map fun i => i.certificateArn.word.bytes), o.certificateFile,
      o.privkeyFile, outputOf (r.describeIotcoreEndpoint.map Token.bytes)], Wordy t := by
    simp only [List.forall_mem_cons]
    exact ⟨wordy_thingName _, ht, hcert, hcrt, hprv, hendpoint, by simp⟩
  have heq := flatMap_words hall
  refine ⟨heq, fun t hmem => hall t ?_⟩
  rw [storeArgs, heq] at hmem
  exact (List.mem_filter.mp hmem).1

theorem storeArgs_issued {i : Issued} (hi : r.createKeysAndCertificate = some i)
    (ht : Wordy thingArn) (hne : thingArn ≠ []) :
    ∃ rest, storeArgs o r thingArn = o.thingName.bytes :: thingArn ::
      i.certificateArn.word.bytes :: o.certificateFile :: o.privkeyFile :: rest := by
  have hcert : Wordy i.certificateArn.word.bytes := i.certificateArn.word.mem_ok
  have hcrt : o.certificateFile ≠ [] := file_ne_nil _
  have hprv : o.privkeyFile ≠ [] := file_ne_nil _
  rw [(storeArgs_eq ht).1, hi, Option.map_some, hcert.output]
  simp [hne, hcrt, hprv, o.thingName.ne_nil, i.certificateArn.word.ne_nil]

/-- Without one, the file names move one place to the front. -/
theorem storeArgs_failed (hi : r.createKeysAndCertificate = none) (ht : Wordy thingArn)
    (hne : thingArn ≠ []) :
    ∃ rest, storeArgs o r thingArn = o.thingName.bytes :: thingArn :: o.certificateFile ::
      o.privkeyFile :: rest := by
  have hcrt : o.certificateFile ≠ [] := file_ne_nil _
  have hprv : o.privkeyFile ≠ [] := file_ne_nil _
  rw [(storeArgs_eq ht).1, hi, Option.map_none, outputOf_none]
  simp [hne, hcrt, hprv, o.thingName.ne_nil]

theorem buildDecode_base64 {file bytes : List Byte} (hw : Wordy file) (hne : file ≠ [])
    (hf : files file = some bytes) :
    buildDecode (commandSubstitution (base64 files stdin (words file))) = some bytes := by
  have hb : base64 files stdin (words file) = Base64.encode bytes := by
    rw [hw.words hne, base64, hf]
    rfl
  rw [hb, (wordy_encode bytes).commandSubstitution, buildDecode_encode]

theorem front_nodup {args : List (List Byte)} :
    ((secretMembers o r files stdin args).dropLast.map Prod.fst).Nodup := by
  simp only [secretMembers, List.dropLast, List.map_cons, List.map_nil]
  decide

/-- A field of the secret, if the suite id does not bring its key. -/
theorem field_secret {args : List (List Byte)} (h : ∀ t ∈ args, Wordy t) {secretString : List Byte}
    (hs : secretString = FlatJson.render heredoc (secretMembers o r files stdin args))
    {ms : List (List Byte × Option (List Byte))}
    (hread : FlatJson.read (FlatJson.render heredoc [(ascii "da_suite", o.suiteId)]) = some ms)
    {key : List Byte} (hkey : ∀ m ∈ ms, m.1 ≠ key) :
    FlatJson.field key secretString = (secretMembers o r files stdin args).dropLast.lookup key := by
  have hsecret := read_secret o r files stdin h
  rw [hread, Option.map_some, ← hs] at hsecret
  exact FlatJson.field_of_read hsecret front_nodup hkey

theorem secret_fields (hfits : suiteFits o.suiteId = true) {args : List (List Byte)}
    (h : ∀ t ∈ args, Wordy t) {secretString : List Byte}
    (hs : secretString = FlatJson.render heredoc (secretMembers o r files stdin args)) :
    FlatJson.field (ascii "thing_arn") secretString = some (args.getD 1 []) ∧
    FlatJson.field (ascii "certificate_arn") secretString = some (args.getD 2 []) ∧
    FlatJson.field (ascii "certificate") secretString =
      some (commandSubstitution (base64 files stdin (words (args.getD 3 [])))) ∧
    FlatJson.field (ascii "privatekey") secretString =
      some (commandSubstitution (base64 files stdin (words (args.getD 4 [])))) := by
  obtain ⟨ms, hread, hms⟩ := (Option.any_eq_true _ _).mp hfits
  have hfield : ∀ key ∈ handoverKeys, FlatJson.field key secretString =
      (secretMembers o r files stdin args).dropLast.lookup key := by
    intro key hmem
    refine field_secret h hs hread fun m hm he => ?_
    have hout := List.all_eq_true.mp hms m hm
    rw [he, List.contains_iff_mem.mpr hmem] at hout
    exact absurd hout (by decide)
  simp only [handoverKeys, List.forall_mem_cons] at hfield
  exact ⟨hfield.1, hfield.2.1, hfield.2.2.1, hfield.2.2.2.1⟩

theorem suiteFits_of_fields {args : List (List Byte)} (h : ∀ t ∈ args, Wordy t)
    {secretString : List Byte}
    (hs : secretString = FlatJson.render heredoc (secretMembers o r files stdin args))
    (hfound : ∀ key ∈ handoverKeys, (FlatJson.field key secretString).isSome = true) :
    suiteFits o.suiteId = true := by
  have hsecret := read_secret o r files stdin h
  rw [← hs] at hsecret
  cases hread : FlatJson.read (FlatJson.render heredoc [(ascii "da_suite", o.suiteId)]) with
  | none =>
    rw [hread, Option.map_none] at hsecret
    have hnone : FlatJson.field (ascii "thing_arn") secretString = none := by
      rw [FlatJson.field, hsecret]
      rfl
    have hsome := hfound (ascii "thing_arn") List.mem_cons_self
    rw [hnone] at hsome
    exact absurd hsome (by decide)
  | some ms =>
    rw [hread, Option.map_some] at hsecret
    rw [suiteFits, hread, Option.any_some, List.all_eq_true]
    intro m hm
    -- a member that the suite id brings would stand there twice
    by_contra hkey
    have hmem : m.1 ∈ handoverKeys := by simpa using hkey
    have hfront : ∀ key ∈ handoverKeys,
        key ∈ (secretMembers o r files stdin args).dropLast.map Prod.fst := by
      simp only [secretMembers, List.dropLast, List.map_cons, List.map_nil]
      decide
    have htwice := FlatJson.field_of_twice hsecret (hfront m.1 hmem) (List.mem_map_of_mem hm)
    have hsome := hfound m.1 hmem
    rw [htwice] at hsome
    exact absurd hsome (by decide)

theorem suiteFits_of_plain {suiteId : List Byte} (h : ∀ b ∈ suiteId, FlatJson.isPlain b = true) :
    suiteFits suiteId = true := by
  rw [suiteFits, FlatJson.read_render_singleton ⟨suiteKey_plain, h⟩]
  exact (by decide : (!handoverKeys.contains (ascii "da_suite") && true) = true)

theorem files_issued {i : Issued} (hi : r.createKeysAndCertificate = some i) :
    (createCertificateDevmode o r files).2 o.certificateFile = some i.certificatePem ∧
      (createCertificateDevmode o r files).2 o.privkeyFile = some i.privateKey := by
  have hcp : o.certificateFile ≠ o.pubkeyFile := fun h => absurd (file_injective h) (by decide)
  have hck : o.certificateFile ≠ o.privkeyFile := fun h => absurd (file_injective h) (by decide)
  simp only [createCertificateDevmode, hi]
  constructor
  · rw [Function.update_of_ne hck, Function.update_of_ne hcp, Function.update_self]
  · rw [Function.update_self]

/-- The secret of a run in which the certificate was issued, with any text as `THING_ARN`. -/
theorem secret_issued (hfits : suiteFits o.suiteId = true) {i : Issued}
    (hi : r.createKeysAndCertificate = some i) (ht : Wordy thingArn) (hne : thingArn ≠ [])
    {files' : Files}
    (hfiles' : files' = (createCertificateDevmode o r files).2) {secretString : List Byte}
    (hs : secretString = FlatJson.render heredoc
      (secretMembers o r files' stdin (storeArgs o r thingArn))) :
    FlatJson.field (ascii "thing_arn") secretString = some thingArn ∧
      (thingArn = r.thingArn.word.bytes → Handover o r secretString files') := by
  obtain ⟨rest, hargs⟩ := storeArgs_issued (o := o) hi ht hne
  have hfields := secret_fields hfits (storeArgs_eq ht).2 hs
  rw [hargs] at hfields
  simp only [List.getD_cons_succ, List.getD_cons_zero] at hfields
  obtain ⟨harn, hcertArn, hcert, hkey⟩ := hfields
  have hfiles : files' o.certificateFile = some i.certificatePem ∧
      files' o.privkeyFile = some i.privateKey := hfiles' ▸ files_issued hi
  refine ⟨harn, fun he => ⟨he ▸ harn, ⟨i, hi, hcertArn⟩, ⟨_, hfiles.1, ?_⟩, ⟨_, hfiles.2, ?_⟩⟩⟩
  · rw [hcert, Option.bind_some]
    exact buildDecode_base64 (wordy_file o (by decide)) (file_ne_nil _) hfiles.1
  · rw [hkey, Option.bind_some]
    exact buildDecode_base64 (wordy_file o (by decide)) (file_ne_nil _) hfiles.2

theorem suiteFits_of_handover (ht : Wordy thingArn) {secretString : List Byte}
    (hs : secretString = FlatJson.render heredoc
      (secretMembers o r files stdin (storeArgs o r thingArn))) {files' : Files}
    (h : Handover o r secretString files') : suiteFits o.suiteId = true := by
  refine suiteFits_of_fields (storeArgs_eq ht).2 hs ?_
  obtain ⟨i, -, hcertArn⟩ := h.certificateArn
  obtain ⟨certificate, -, hcert⟩ := h.certificate
  obtain ⟨privatekey, -, hkey⟩ := h.privatekey
  obtain ⟨x, hx, -⟩ := Option.bind_eq_some_iff.mp hcert
  obtain ⟨y, hy, -⟩ := Option.bind_eq_some_iff.mp hkey
  simp only [handoverKeys, List.forall_mem_cons]
  rw [h.thingArn, hcertArn, hx, hy]
  exact ⟨rfl, rfl, rfl, rfl, by simp⟩

/-- When `create-keys-and-certificate` fails, what the build takes for the certificate is the
private-key file of an earlier run. -/
theorem certificate_of_failed (hfits : suiteFits o.suiteId = true)
    (hi : r.createKeysAndCertificate = none) (ht : Wordy thingArn)
    (hne : thingArn ≠ []) {key : List Byte} (hkey : files o.privkeyFile = some key) :
    (FlatJson.field (ascii "certificate") (FlatJson.render heredoc
      (secretMembers o r files stdin (storeArgs o r thingArn)))).bind buildDecode = some key := by
  obtain ⟨rest, hargs⟩ := storeArgs_failed (o := o) hi ht hne
  rw [(secret_fields hfits (storeArgs_eq ht).2 rfl).2.2.1, hargs]
  simp only [List.getD_cons_succ, List.getD_cons_zero, Option.bind_some]
  exact buildDecode_base64 (wordy_file o (by decide)) (file_ne_nil _) hkey

end Fields

theorem wordy_resolved (o : Options) (r : Replies) :
    Wordy (if looksThingUp o r then ascii "None" else r.thingArn.word.bytes) := by
  split
  · decide
  · exact r.thingArn.word.mem_ok

theorem none_ne_arn (arn : Arn) : ascii "None" ≠ arn.word.bytes := by
  intro h
  have hp := arn.isArn
  rw [← h] at hp
  exact absurd hp (by decide)

/-- The hand-over is faithful if and only if the script does not get to its secret, or the
certificate was issued, the thing was not looked up and the suite id fits into the secret. -/
theorem handover_iff (o : Options) (r : Replies) (files : Files) (stdin : List Byte) :
    HandoverFaithful o r files stdin ↔ (reachesSecret o r = true →
      r.createKeysAndCertificate.isSome = true ∧ looksThingUp o r = false ∧
        suiteFits o.suiteId = true) := by
  have hnone : Wordy (ascii "None") := by decide
  constructor
  · intro h hreach
    obtain ⟨secretName, heq⟩ := createIotCredential_eq files stdin hreach
    have hover := h _ _ _ _ heq
    have hfits := suiteFits_of_handover (wordy_resolved o r) rfl hover
    obtain ⟨i, hi, -⟩ := hover.certificateArn
    refine ⟨by rw [hi]; rfl, Bool.eq_false_iff.mpr fun hl => ?_, hfits⟩
    have harn := hover.thingArn
    rw [if_pos hl, (secret_issued hfits hi hnone (by decide) rfl rfl).1] at harn
    exact none_ne_arn r.thingArn (Option.some.inj harn)
  · intro h update secretName secretString files' heq
    have hreach := reachesSecret_of_secret heq
    obtain ⟨hissued, hl, hfits⟩ := h hreach
    obtain ⟨i, hi⟩ := Option.isSome_iff_exists.mp hissued
    obtain ⟨name, heq'⟩ := createIotCredential_eq files stdin hreach
    rw [heq', hl] at heq
    obtain ⟨-, -, rfl, rfl⟩ := Outcome.secret.inj heq
    exact (secret_issued hfits hi r.thingArn.word.mem_ok r.thingArn.word.ne_nil rfl rfl).2 rfl

def forcedOptions : Options where
  volatileDir := ⟨ascii "v", by decide, by decide⟩
  thingName := ⟨ascii "t", by decide, by decide⟩
  policyName := ⟨ascii "p", by decide, by decide⟩
  policyFile := none
  secretName := some ⟨ascii "s", by decide, by decide⟩
  suiteId := []
  force := true
  secretUpdate := false

def someArn : Arn where
  word := ⟨ascii "arn:aws:iot", by decide, by decide⟩
  isArn := by decide

/-- Only `create-keys-and-certificate` fails. -/
def failedKeys : Replies where
  createKeysAndCertificate := none
  thingArn := someArn
  createThing := true
  listThings := some []
  listThingsAgain := some []
  listPolicies := some []
  listPoliciesAgain := some []
  createPolicy := some someArn
  describeIotcoreEndpoint := some ⟨ascii "e", by decide, by decide⟩
  describeDaEndpoint := some ⟨ascii "d", by decide, by decide⟩

/-- A certificate and a private key of an earlier run. -/
def leftover : Files := fun file =>
  if file = forcedOptions.certificateFile then some (ascii "crt")
  else if file = forcedOptions.privkeyFile then some (ascii "key")
  else none

theorem private_key_as_certificate :
    ¬ ∀ o r files stdin, HandoverFaithful o r files stdin := by
  intro h
  have hreach : reachesSecret forcedOptions failedKeys = true := by decide
  obtain ⟨secretName, heq⟩ := createIotCredential_eq leftover [] hreach
  obtain ⟨bytes, hfile, hfield⟩ := (h _ _ _ _ _ _ _ _ heq).certificate
  have hkey : leftover forcedOptions.privkeyFile = some (ascii "key") := by decide
  have hcrt : leftover forcedOptions.certificateFile = some (ascii "crt") := by decide
  have hstored : (FlatJson.field (ascii "certificate") (FlatJson.render heredoc (secretMembers
      forcedOptions failedKeys leftover [] (storeArgs forcedOptions failedKeys
        someArn.word.bytes)))).bind buildDecode = some (ascii "key") :=
    certificate_of_failed (by decide +kernel) rfl someArn.word.mem_ok someArn.word.ne_nil hkey
  -- the file holds the certificate, the field the key
  obtain rfl := Option.some.inj (hcrt.symm.trans hfile)
  exact absurd (hstored.symm.trans hfield) (by decide)

end Stm32f7Renode.Credential
