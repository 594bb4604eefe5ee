import Stm32f7Renode.Credential

namespace Stm32f7Renode.Credential
open WireText Shell

def Literal (text : List Byte) : Prop := ∀ b ∈ text, isLiteral b = true

instance (text : List Byte) : Decidable (Literal text) :=
  decidable_of_iff (text.all isLiteral = true) List.all_eq_true

/-- The names and replies have no quotes, expansions or operators of the shell, the suite id needs
no escaping, and the service lists no policy twice. -/
structure Sourceable (o : Options) (r : Replies) : Prop where
  suiteId : ∀ b ∈ o.suiteId, FlatJson.isPlain b = true
  volatileDir : Literal o.volatileDir.bytes
  policyName : Literal o.policyName.bytes
  thingArn : Literal r.thingArn.word.bytes
  certificateArn : ∀ i ∈ r.createKeysAndCertificate, Literal i.certificateArn.word.bytes
  createPolicy : ∀ arn ∈ r.createPolicy, Literal arn.word.bytes
  listPolicies : ∀ entries ∈ r.listPoliciesAgain,
    (entries.map Prod.fst).Nodup ∧ ∀ e ∈ entries, Literal e.2.word.bytes
  iotcoreEndpoint : ∀ w ∈ r.describeIotcoreEndpoint, Literal w.bytes
  daEndpoint : ∀ w ∈ r.describeDaEndpoint, Literal w.bytes

theorem Literal.append {s t : List Byte} (hs : Literal s) (ht : Literal t) : Literal (s ++ t) :=
  fun b hb => (List.mem_append.mp hb).elim (hs b) (ht b)

theorem literal_nil : Literal [] := by simp [Literal]

theorem literal_facts {b : Byte} (h : isLiteral b = true) : b ≠ 0 ∧ b ≠ newline := by
  revert b
  apply forall_byte
  decide +kernel

theorem Literal.output {text : List Byte} (h : Literal text) : outputOf (some text) = text :=
  commandSubstitution_line (fun hb => (literal_facts (h 0 hb)).1 rfl)
    fun hb => (literal_facts (h newline hb)).2 rfl

theorem literal_outputOf {reply : Option (List Byte)} (h : ∀ t ∈ reply, Literal t) :
    Literal (outputOf reply) := by
  cases reply with
  | none =>
    rw [outputOf_none]
    exact literal_nil
  | some t =>
    rw [(h t rfl).output]
    exact h t rfl

theorem literal_thingName (name : ThingName) : Literal name.bytes := by
  have hthing : Literal thingBytes := by decide +kernel
  exact fun b hb => hthing b (List.contains_iff_mem.mp (name.mem_ok b hb))

section Sourceable

variable {o : Options} {r : Replies} {thingArn policyArn : List Byte}

theorem Sourceable.file (hs : Sourceable o r) {suffix : List Byte} (h : Literal suffix) :
    Literal (o.file suffix) := by
  have hslash : Literal (ascii "/") := by decide
  have hname := literal_thingName o.thingName
  exact ((((hs.volatileDir.append hslash).append hname).append hslash).append hname).append h

theorem Sourceable.resolveThing (hs : Sourceable o r) (h : resolveThing o r = .ok thingArn) :
    thingArn ≠ [] ∧ Wordy thingArn ∧ Literal thingArn := by
  have hresolved : thingResolved o r = true := by
    by_contra hn
    obtain ⟨message, he⟩ := resolveThing_error o r (Bool.eq_false_iff.mpr hn)
    exact absurd (h.symm.trans he) (by simp)
  rw [resolveThing_eq o r hresolved] at h
  obtain rfl := Except.ok.inj h
  split
  · decide
  · exact ⟨r.thingArn.word.ne_nil, r.thingArn.word.mem_ok, hs.thingArn⟩

theorem literal_query {entries : List Entry} (hnodup : (entries.map Prod.fst).Nodup)
    (h : ∀ e ∈ entries, Literal e.2.word.bytes) (name : List Byte) :
    Literal (query ⟨policiesKey, entries⟩ policiesKey name fun e => e.2.word.bytes) := by
  have hone : (entries.filter fun e => e.1 = name).length ≤ 1 := by
    have hcount : (entries.map Prod.fst).count name ≤ 1 :=
      List.nodup_iff_count_le_one.mp hnodup name
    rw [List.count_eq_length_filter, List.filter_map, List.length_map] at hcount
    simpa [Function.comp_def, beq_eq_decide] using hcount
  rw [query, if_pos rfl]
  cases hf : entries.filter fun e => e.1 = name with
  | nil => exact literal_nil
  | cons e es =>
    have hnil : es = [] := by
      rw [hf, List.length_cons] at hone
      exact List.length_eq_zero_iff.mp (by omega)
    have he : e ∈ entries := (List.mem_filter.mp (hf ▸ List.mem_cons_self)).1
    simpa [hnil, List.intercalate] using h e he

theorem Sourceable.resolvePolicy (hs : Sourceable o r) (h : resolvePolicy o r = .ok policyArn) :
    Literal policyArn := by
  unfold Credential.resolvePolicy at h
  split at h
  · cases hl : r.listPoliciesAgain with
    | none => simp [getPolicyArn, hl] at h
    | some entries =>
      simp only [getPolicyArn, hl, Option.map_some] at h
      obtain rfl := Except.ok.inj h
      obtain ⟨hnodup, hall⟩ := hs.listPolicies entries hl
      have hq := literal_query hnodup hall o.policyName.bytes
      rwa [hq.output]
  · cases hc : r.createPolicy with
    | none =>
      simp only [Credential.createPolicy, hc, Option.map_none] at h
      split at h
      · obtain rfl := Except.ok.inj h
        exact literal_nil
      · simp at h
    | some arn =>
      simp only [Credential.createPolicy, hc, Option.map_some] at h
      obtain rfl := Except.ok.inj h
      have harn := hs.createPolicy arn hc
      rwa [harn.output]

theorem literal_map {α : Type*} {reply : Option α} {f : α → List Byte}
    (h : ∀ x ∈ reply, Literal (f x)) : Literal (outputOf (reply.map f)) := by
  refine literal_outputOf fun t ht => ?_
  obtain ⟨x, hx, rfl⟩ := Option.map_eq_some_iff.mp ht
  exact h x hx

theorem Sourceable.storeArgs (hs : Sourceable o r) (hw : Wordy thingArn) (ht : Literal thingArn) :
    ∀ t ∈ storeArgs o r thingArn, Literal t := by
  have hall : ∀ t ∈ [o.thingName.bytes, thingArn, outputOf
      (r.createKeysAndCertificate.map fun i => i.certificateArn.word.bytes), o.certificateFile,
      o.privkeyFile, outputOf (r.describeIotcoreEndpoint.map Token.bytes)], Literal t := by
    simp only [List.forall_mem_cons]
    exact ⟨literal_thingName _, ht, literal_map hs.certificateArn, hs.file (by decide),
      hs.file (by decide), literal_map hs.iotcoreEndpoint, by simp⟩
  intro t hmem
  rw [(storeArgs_eq hw).1] at hmem
  exact hall t (List.mem_filter.mp hmem).1

/-- The arguments that hold in every run, and the two that depend on the certificate. -/
theorem storeArgs_front (hw : Wordy thingArn) (hne : thingArn ≠ []) :
    (storeArgs o r thingArn).getD 0 [] = o.thingName.bytes ∧
      (storeArgs o r thingArn).getD 1 [] = thingArn ∧
      (storeArgs o r thingArn).getD 3 [] ≠ [] ∧
      (r.createKeysAndCertificate = none →
        (storeArgs o r thingArn).getD 2 [] = o.certificateFile) ∧
      (∀ i, r.createKeysAndCertificate = some i →
        (storeArgs o r thingArn).getD 2 [] = i.certificateArn.word.bytes ∧
          (storeArgs o r thingArn).getD 4 [] = o.privkeyFile) := by
  cases hi : r.createKeysAndCertificate with
  | none =>
    obtain ⟨rest, hargs⟩ := storeArgs_failed (o := o) hi hw hne
    rw [hargs]
    exact ⟨rfl, rfl, file_ne_nil _, fun _ => rfl, fun i h => absurd h (by simp)⟩
  | some i =>
    obtain ⟨rest, hargs⟩ := storeArgs_issued (o := o) hi hw hne
    rw [hargs]
    refine ⟨rfl, rfl, file_ne_nil _, fun h => absurd h (by simp), fun j h => ?_⟩
    obtain rfl := Option.some.inj h
    exact ⟨rfl, rfl⟩

/-- What the build decodes is what the file holds, or nothing when there is no such file. -/
theorem buildDecode_operand {files : Files} {stdin file : List Byte} (hw : Wordy file)
    (hne : file ≠ []) :
    buildDecode (commandSubstitution (base64 files stdin (words file))) =
      some ((files file).getD []) := by
  cases hf : files file with
  | some bytes => exact buildDecode_base64 hw hne hf
  | none =>
    rw [hw.words hne, base64, hf]
    decide

theorem secret_endpoints {files : Files} {stdin : List Byte}
    (hsuite : ∀ b ∈ o.suiteId, FlatJson.isPlain b = true) {args : List (List Byte)}
    (h : ∀ t ∈ args, Wordy t) {secretString : List Byte}
    (hs : secretString = FlatJson.render heredoc (secretMembers o r files stdin args)) :
    FlatJson.field (ascii "thing_name") secretString = some (args.getD 0 []) ∧
    FlatJson.field (ascii "iotcore_endpoint") secretString = some (args.getD 5 []) ∧
    FlatJson.field (ascii "da_endpoint") secretString =
      some (outputOf (r.describeDaEndpoint.map Token.bytes)) ∧
    FlatJson.field (ascii "da_suite") secretString = some o.suiteId := by
  have hplain : ∀ m ∈ secretMembers o r files stdin args, m.Plain := by
    intro m hm
    rw [secretMembers_eq_append] at hm
    rcases List.mem_append.mp hm with hm | hm
    · exact secretMembers_plain o r files stdin h m hm
    · rw [List.mem_singleton.mp hm]
      exact ⟨suiteKey_plain, hsuite⟩
  have hnodup : ((secretMembers o r files stdin args).map Prod.fst).Nodup := by
    simp only [secretMembers, List.map_cons, List.map_nil]
    decide
  have hfield : ∀ key, FlatJson.field key secretString =
      (secretMembers o r files stdin args).lookup key := fun key =>
    hs ▸ FlatJson.field_render (by simp [secretMembers]) hplain hnodup key
  exact ⟨hfield _, hfield _, hfield _, hfield _⟩

end Sourceable

end Stm32f7Renode.Credential
