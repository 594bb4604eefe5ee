import Stm32f7Renode.Journal

namespace Stm32f7Renode.NetworkHooks
open WireText Logging

structure AddressConfiguration where
  ulIPAddress : UInt32
  ulNetMask : UInt32
  ulGatewayAddress : UInt32
  ulDNSServerAddress : UInt32
deriving DecidableEq, Repr

inductive PingReplyStatus
  | eSuccess | eInvalidChecksum | eInvalidData
deriving DecidableEq, Repr

inductive DHCPCallbackPhase
  | eDHCPPhasePreDiscover | eDHCPPhasePreRequest
deriving DecidableEq, Repr

inductive Event
  | eNetworkUp (c : AddressConfiguration)
  | eNetworkDown
  | pingReply (eStatus : PingReplyStatus) (usIdentifier : UInt16)
  | dhcp (eDHCPPhase : DHCPCallbackPhase)
deriving DecidableEq, Repr

/-- The dotted notation of the network library: `FreeRTOS_inet_ntoa` writes an address into a
buffer of 16 bytes, and `FreeRTOS_inet_addr` reads it back. -/
structure DottedNotation where
  inet_ntoa : UInt32 → CString
  inet_addr : List Byte → Option UInt32
  addr_ntoa : ∀ a, inet_addr (inet_ntoa a).bytes = some a
  fits : ∀ a, (inet_ntoa a).bytes.length < 16
  no_cr : ∀ a, CR ∉ (inet_ntoa a).bytes

def MESSAGE_IP_NETWORK_UP : List Byte := ascii "IP Network event: UP"

def MESSAGE_IP_NETWORK_DOWN : List Byte := ascii "IP Network event: DOWN"

def MESSAGE_IP_ADDRESS : List Byte := ascii "IP Address: "

def MESSAGE_SUBNET_MASK : List Byte := ascii "Subnet Mask: "

def MESSAGE_GW_ADDRESS : List Byte := ascii "Gateway Address: "

def MESSAGE_DNS_ADDRESS : List Byte := ascii "DNS Server Address: "

def MESSAGE_PING_SUCCESS : List Byte := ascii "Ping reply received - identifier "

def MESSAGE_INVALID_CHECKSUM : List Byte :=
  ascii "Ping reply received with invalid checksum - identifier "

def MESSAGE_INVALID_DATA : List Byte :=
  ascii "Ping reply received with invalid data - identifier "

def MESSAGE_DHCP_PREDISCOVER : List Byte := ascii "DHCP event: Pre-Discover Event"

def MESSAGE_DHCP_PREREQUEST : List Byte := ascii "DHCP event: Pre-Request Event"

def PingReplyStatus.message : PingReplyStatus → List Byte
  | .eSuccess => MESSAGE_PING_SUCCESS
  | .eInvalidChecksum => MESSAGE_INVALID_CHECKSUM
  | .eInvalidData => MESSAGE_INVALID_DATA

def DHCPCallbackPhase.message : DHCPCallbackPhase → List Byte
  | .eDHCPPhasePreDiscover => MESSAGE_DHCP_PREDISCOVER
  | .eDHCPPhasePreRequest => MESSAGE_DHCP_PREREQUEST

section Texts

variable (d : DottedNotation)

def vApplicationIPNetworkEventUp (c : AddressConfiguration) : List (List Byte) :=
  [MESSAGE_IP_NETWORK_UP,
    MESSAGE_IP_ADDRESS ++ (d.inet_ntoa c.ulIPAddress).bytes,
    MESSAGE_SUBNET_MASK ++ (d.inet_ntoa c.ulNetMask).bytes,
    MESSAGE_GW_ADDRESS ++ (d.inet_ntoa c.ulGatewayAddress).bytes,
    MESSAGE_DNS_ADDRESS ++ (d.inet_ntoa c.ulDNSServerAddress).bytes]

def vApplicationPingReplyHook (eStatus : PingReplyStatus) (usIdentifier : UInt16) : List Byte :=
  eStatus.message ++ decimal usIdentifier.toNat

/-- The bodies that a hook prints, one for each `vLoggingPrintf`. -/
def hookLines : Event → List (List Byte)
  | .eNetworkUp c => vApplicationIPNetworkEventUp d c
  | .eNetworkDown => [MESSAGE_IP_NETWORK_DOWN]
  | .pingReply eStatus usIdentifier => [vApplicationPingReplyHook eStatus usIdentifier]
  | .dhcp eDHCPPhase => [eDHCPPhase.message]

def readIdentifier (text : List Byte) : Option UInt16 :=
  if text ≠ [] ∧ text.all isDigit then some (UInt16.ofNat (value text)) else none

def readPing (line : List Byte) (eStatus : PingReplyStatus) : Option Event :=
  (skip eStatus.message line).bind fun text => (readIdentifier text).map (.pingReply eStatus)

def readLine (line : List Byte) : Option Event :=
  if line = MESSAGE_IP_NETWORK_DOWN then some .eNetworkDown
  else if line = MESSAGE_DHCP_PREDISCOVER then some (.dhcp .eDHCPPhasePreDiscover)
  else if line = MESSAGE_DHCP_PREREQUEST then some (.dhcp .eDHCPPhasePreRequest)
  else (readPing line .eSuccess).or ((readPing line .eInvalidChecksum).or
    (readPing line .eInvalidData))

def readAddress (message line : List Byte) : Option UInt32 :=
  (skip message line).bind d.inet_addr

def readConfiguration (ip mask gw dns : List Byte) : Option AddressConfiguration := do
  let ulIPAddress ← readAddress d MESSAGE_IP_ADDRESS ip
  let ulNetMask ← readAddress d MESSAGE_SUBNET_MASK mask
  let ulGatewayAddress ← readAddress d MESSAGE_GW_ADDRESS gw
  let ulDNSServerAddress ← readAddress d MESSAGE_DNS_ADDRESS dns
  some { ulIPAddress, ulNetMask, ulGatewayAddress, ulDNSServerAddress }

def readUp : List (List Byte) → Option AddressConfiguration
  | ip :: mask :: gw :: dns :: _ => readConfiguration d ip mask gw dns
  | _ => none

/-- The events of a sequence of lines; other lines are passed over. -/
def readEvents : List (List Byte) → List Event
  | [] => []
  | line :: rest =>
    match readLine line with
    | some e => e :: readEvents rest
    | none =>
      if line = MESSAGE_IP_NETWORK_UP then
        ((readUp d rest).map .eNetworkUp).toList ++ readEvents rest
      else readEvents rest

/-- A line that starts no event. -/
def OtherLine (line : List Byte) : Prop := readLine line = none ∧ line ≠ MESSAGE_IP_NETWORK_UP

instance (line : List Byte) : Decidable (OtherLine line) := inferInstanceAs (Decidable (_ ∧ _))

end Texts

/-- Two texts that differ in a place that both have. -/
def Differ (message label : List Byte) : Prop :=
  message.take label.length ≠ label.take message.length

instance (message label : List Byte) : Decidable (Differ message label) :=
  inferInstanceAs (Decidable (_ ≠ _))

section Differ

variable {message label : List Byte}

theorem Differ.skip_eq_none (h : Differ message label) (text : List Byte) :
    skip message (label ++ text) = none := by
  apply if_neg
  intro hp
  have hm : message = (label ++ text).take message.length := List.prefix_iff_eq_take.mp hp
  apply h
  calc message.take label.length
      = ((label ++ text).take message.length).take label.length := by rw [← hm]
    _ = ((label ++ text).take label.length).take message.length := by
        rw [List.take_take, List.take_take, Nat.min_comm]
    _ = label.take message.length := by rw [List.take_left' rfl]

theorem Differ.ne_append (h : Differ message label) (text : List Byte) :
    label ++ text ≠ message := by
  rintro rfl
  apply h
  rw [List.take_left' rfl, List.take_of_length_le]
  simp

end Differ

theorem readIdentifier_decimal (x : UInt16) : readIdentifier (decimal x.toNat) = some x := by
  have hdigits : (decimal x.toNat).all isDigit = true :=
    List.all_eq_true.mpr fun _ hb => isDigit_of_mem_decimal hb
  rw [readIdentifier, if_pos ⟨decimal_ne_nil _, hdigits⟩, value_decimal, UInt16.ofNat_toNat]

def lineMessages : List (List Byte) :=
  [MESSAGE_IP_NETWORK_DOWN, MESSAGE_DHCP_PREDISCOVER, MESSAGE_DHCP_PREREQUEST,
    MESSAGE_PING_SUCCESS, MESSAGE_INVALID_CHECKSUM, MESSAGE_INVALID_DATA]

theorem readPing_of_differ {label : List Byte} (eStatus : PingReplyStatus)
    (h : Differ eStatus.message label) (text : List Byte) :
    readPing (label ++ text) eStatus = none := by
  rw [readPing, h.skip_eq_none, Option.bind_none]

theorem readLine_of_differ {label : List Byte} (h : ∀ m ∈ lineMessages, Differ m label)
    (text : List Byte) : readLine (label ++ text) = none := by
  simp only [lineMessages, List.forall_mem_cons] at h
  obtain ⟨hdown, hpre, hreq, hok, hsum, hdata, -⟩ := h
  rw [readLine, if_neg (hdown.ne_append text), if_neg (hpre.ne_append text),
    if_neg (hreq.ne_append text), readPing_of_differ .eSuccess hok,
    readPing_of_differ .eInvalidChecksum hsum,
    readPing_of_differ .eInvalidData hdata]
  rfl

theorem otherLine_of_differ {label : List Byte}
    (h : ∀ m ∈ MESSAGE_IP_NETWORK_UP :: lineMessages, Differ m label) (text : List Byte) :
    OtherLine (label ++ text) :=
  ⟨readLine_of_differ (fun m hm => h m (List.mem_cons_of_mem _ hm)) text,
    (h _ List.mem_cons_self).ne_append text⟩

theorem readPing_self (eStatus : PingReplyStatus) (x : UInt16) :
    readPing (vApplicationPingReplyHook eStatus x) eStatus = some (.pingReply eStatus x) := by
  rw [readPing, vApplicationPingReplyHook, skip_append, Option.bind_some, readIdentifier_decimal]
  rfl

theorem readLine_pingReply (eStatus : PingReplyStatus) (x : UInt16) :
    readLine (vApplicationPingReplyHook eStatus x) = some (.pingReply eStatus x) := by
  have hself := readPing_self eStatus x
  have hdown : vApplicationPingReplyHook eStatus x ≠ MESSAGE_IP_NETWORK_DOWN := by
    cases eStatus <;> exact Differ.ne_append (by decide) _
  have hpre : vApplicationPingReplyHook eStatus x ≠ MESSAGE_DHCP_PREDISCOVER := by
    cases eStatus <;> exact Differ.ne_append (by decide) _
  have hreq : vApplicationPingReplyHook eStatus x ≠ MESSAGE_DHCP_PREREQUEST := by
    cases eStatus <;> exact Differ.ne_append (by decide) _
  rw [readLine, if_neg hdown, if_neg hpre, if_neg hreq]
  cases eStatus with
  | eSuccess => rw [hself]; rfl
  | eInvalidChecksum =>
    have h1 : readPing (vApplicationPingReplyHook .eInvalidChecksum x) .eSuccess = none :=
      readPing_of_differ _ (by decide) _
    rw [h1, hself]
    rfl
  | eInvalidData =>
    have h1 : readPing (vApplicationPingReplyHook .eInvalidData x) .eSuccess = none :=
      readPing_of_differ _ (by decide) _
    have h2 : readPing (vApplicationPingReplyHook .eInvalidData x) .eInvalidChecksum = none :=
      readPing_of_differ _ (by decide) _
    rw [h1, h2, hself]
    rfl

section Reading

variable {d : DottedNotation}

theorem readAddress_self (message : List Byte) (a : UInt32) :
    readAddress d message (message ++ (d.inet_ntoa a).bytes) = some a := by
  rw [readAddress, skip_append, Option.bind_some, d.addr_ntoa]

theorem readEvents_other {line : List Byte} (h : OtherLine line) (rest : List (List Byte)) :
    readEvents d (line :: rest) = readEvents d rest := by
  rw [readEvents, h.1]
  exact if_neg h.2

theorem readEvents_line {line : List Byte} {e : Event} (h : readLine line = some e)
    (rest : List (List Byte)) : readEvents d (line :: rest) = e :: readEvents d rest := by
  rw [readEvents, h]

theorem readEvents_others {lines : List (List Byte)} (h : ∀ l ∈ lines, OtherLine l)
    (rest : List (List Byte)) : readEvents d (lines ++ rest) = readEvents d rest := by
  induction lines with
  | nil => rfl
  | cons l lines ih =>
    rw [List.cons_append, readEvents_other (h l List.mem_cons_self)]
    exact ih fun l hl => h l (List.mem_cons_of_mem _ hl)

def addressLines (d : DottedNotation) (c : AddressConfiguration) : List (List Byte) :=
  (vApplicationIPNetworkEventUp d c).tail

theorem addressLines_other (c : AddressConfiguration) : ∀ l ∈ addressLines d c, OtherLine l := by
  simp only [addressLines, vApplicationIPNetworkEventUp, List.tail_cons, List.forall_mem_cons]
  refine ⟨?_, ?_, ?_, ?_, by simp⟩
  all_goals exact otherLine_of_differ (by decide) _

theorem readEvents_upLine (lines : List (List Byte)) :
    readEvents d (MESSAGE_IP_NETWORK_UP :: lines) =
      ((readUp d lines).map .eNetworkUp).toList ++ readEvents d lines := by
  have hup : readLine MESSAGE_IP_NETWORK_UP = none := by decide
  rw [readEvents, hup]
  exact if_pos rfl

theorem readEvents_up (c : AddressConfiguration) (rest : List (List Byte)) :
    readEvents d (vApplicationIPNetworkEventUp d c ++ rest) =
      .eNetworkUp c :: readEvents d rest := by
  have hconf : readUp d (addressLines d c ++ rest) = some c := by
    simp only [addressLines, vApplicationIPNetworkEventUp, List.tail_cons, List.cons_append, readUp,
      readConfiguration, readAddress_self]
    rfl
  have hlines : vApplicationIPNetworkEventUp d c ++ rest =
      MESSAGE_IP_NETWORK_UP :: (addressLines d c ++ rest) := rfl
  rw [hlines, readEvents_upLine, hconf, readEvents_others (addressLines_other c)]
  rfl

/-- The lines of a hook in front of any others. -/
theorem readEvents_hookLines (e : Event) (rest : List (List Byte)) :
    readEvents d (hookLines d e ++ rest) = e :: readEvents d rest := by
  cases e with
  | eNetworkUp c => exact readEvents_up c rest
  | eNetworkDown => exact readEvents_line (by decide) rest
  | pingReply eStatus x => exact readEvents_line (readLine_pingReply eStatus x) rest
  | dhcp eDHCPPhase => exact readEvents_line (by cases eDHCPPhase <;> decide) rest

/-- What the IP task prints: the lines of a hook, or a message of the network library. -/
inductive Printout
  | hook (e : Event)
  | other (body : CString)
deriving DecidableEq, Repr

def Printout.lines (d : DottedNotation) : Printout → List (List Byte)
  | .hook e => hookLines d e
  | .other body => [body.bytes]

def Printout.event : Printout → Option Event
  | .hook e => some e
  | .other _ => none

/-- A message of the library does not start like one of the hooks. -/
def Printout.Told : Printout → Prop
  | .hook _ => True
  | .other body => OtherLine body.bytes

theorem readEvents_lines {x : Printout} (h : x.Told) (rest : List (List Byte)) :
    readEvents d (x.lines d ++ rest) = x.event.toList ++ readEvents d rest := by
  cases x with
  | hook e => exact readEvents_hookLines e rest
  | other body => exact readEvents_other h rest

theorem readUp_of_short {lines : List (List Byte)} (h : lines.length < 4) :
    readUp d lines = none := by
  unfold readUp
  split
  · simp only [List.length_cons] at h
    omega
  · rfl

/-- Lines of a hook that is cut short give no event. -/
theorem readEvents_of_cut {e : Event} {lines : List (List Byte)} (h : lines <+: hookLines d e)
    (hlen : lines.length < (hookLines d e).length) : readEvents d lines = [] := by
  have hnil : lines.length < 1 → readEvents d lines = [] := by
    intro h
    obtain rfl := List.length_eq_zero_iff.mp (show lines.length = 0 by omega)
    rfl
  cases e with
  | eNetworkUp c =>
    cases lines with
    | nil => rfl
    | cons l lines =>
      obtain ⟨rfl, htail⟩ := List.cons_prefix_cons.mp h
      have hothers := readEvents_others (d := d)
        (fun l hl => addressLines_other (d := d) c l (htail.subset hl)) []
      rw [List.append_nil] at hothers
      have hshort : lines.length + 1 < 5 := hlen
      rw [readEvents_upLine, hothers, readUp_of_short (by omega)]
      rfl
  | _ => exact hnil hlen

theorem prefix_append_cases {α : Type*} {p a b : List α} (h : p <+: a ++ b) :
    (p <+: a ∧ p.length < a.length) ∨ ∃ q, p = a ++ q ∧ q <+: b := by
  obtain ⟨r, hr⟩ := h
  rcases List.append_eq_append_iff.mp hr with ⟨q, rfl, -⟩ | ⟨q, rfl, hq⟩
  · rcases q.eq_nil_or_concat with rfl | hq
    · exact .inr ⟨[], by simp, List.nil_prefix⟩
    · refine .inl ⟨List.prefix_append _ _, ?_⟩
      obtain ⟨q', x, rfl⟩ := hq
      simp
  · exact .inr ⟨q, rfl, r, hq.symm⟩

/-- A reader that has seen only a part of the lines has read only a part of the events. -/
theorem readEvents_isPrefix {xs : List Printout} (hxs : ∀ x ∈ xs, x.Told)
    {lines : List (List Byte)} (h : lines <+: xs.flatMap (Printout.lines d)) :
    readEvents d lines <+: xs.filterMap Printout.event := by
  induction xs generalizing lines with
  | nil =>
    obtain rfl := List.prefix_nil.mp h
    exact List.nil_prefix
  | cons x xs ih =>
    have hx := hxs x List.mem_cons_self
    have hevents : (x :: xs).filterMap Printout.event =
        x.event.toList ++ xs.filterMap Printout.event := by
      cases x <;> rfl
    rw [hevents]
    rcases prefix_append_cases h with ⟨hp, hlen⟩ | ⟨q, rfl, hq⟩
    · have hnil : readEvents d lines = [] := by
        cases x with
        | hook e => exact readEvents_of_cut hp hlen
        | other body =>
          obtain rfl := List.length_eq_zero_iff.mp (show lines.length = 0 by
            simpa [Printout.lines] using hlen)
          rfl
      rw [hnil]
      exact List.nil_prefix
    · rw [readEvents_lines hx]
      exact (List.prefix_append_right_inj _).mpr
        (ih (fun y hy => hxs y (List.mem_cons_of_mem _ hy)) hq)

theorem readEvents_all {xs : List Printout} (hxs : ∀ x ∈ xs, x.Told) :
    readEvents d (xs.flatMap (Printout.lines d)) = xs.filterMap Printout.event := by
  induction xs with
  | nil => rfl
  | cons x xs ih =>
    rw [List.flatMap_cons, readEvents_lines (hxs x List.mem_cons_self),
      ih fun y hy => hxs y (List.mem_cons_of_mem _ hy)]
    cases x <;> rfl

end Reading

section System

variable {T : Type*} [DecidableEq T]

/-- The logging system and the IP task: what it has still to print of its current hook, and
everything it has set out to print. -/
structure HookState (T : Type*) where
  log : State T
  todo : List CString
  printed : List Printout

inductive HookLabel (T : Type*)
  | hook (e : Event)
  | other (body : CString)
  | print
  | kernel (l : Label T)

theorem zero_not_mem_hookLines (d : DottedNotation) (e : Event) : ∀ l ∈ hookLines d e, 0 ∉ l := by
  have happ : ∀ {s : List Byte} (a : UInt32), 0 ∉ s → 0 ∉ s ++ (d.inet_ntoa a).bytes := by
    intro s a hs hm
    exact (List.mem_append.mp hm).elim hs (d.inet_ntoa a).noNul
  cases e with
  | eNetworkUp c =>
    simp only [hookLines, vApplicationIPNetworkEventUp, List.forall_mem_cons]
    refine ⟨by decide, happ _ ?_, happ _ ?_, happ _ ?_, happ _ ?_, by simp⟩ <;> decide
  | eNetworkDown =>
    simp only [hookLines, List.forall_mem_singleton]
    decide
  | pingReply eStatus x =>
    simp only [hookLines, List.forall_mem_singleton, vApplicationPingReplyHook, List.mem_append,
      not_or]
    exact ⟨by cases eStatus <;> decide, not_mem_decimal (by decide)⟩
  | dhcp eDHCPPhase =>
    simp only [hookLines, List.forall_mem_singleton]
    cases eDHCPPhase <;> decide

def hookBodies (d : DottedNotation) (e : Event) : List CString :=
  (hookLines d e).pmap CString.mk (zero_not_mem_hookLines d e)

def Printout.bodies (d : DottedNotation) : Printout → List CString
  | .hook e => hookBodies d e
  | .other body => [body]

theorem map_bytes_bodies (d : DottedNotation) (x : Printout) :
    (x.bodies d).map CString.bytes = x.lines d := by
  cases x with
  | hook e =>
    rw [Printout.bodies, hookBodies, List.map_pmap]
    exact List.pmap_eq_self.mpr fun _ _ => rfl
  | other body => rfl

def callsFrom (ip : T) : Label T → Bool
  | .task t (.call _) => decide (t = ip)
  | _ => false

def hookStep (d : DottedNotation) (names : T → CString) (ip : T) (s : HookState T) :
    HookLabel T → Option (HookState T)
  | .hook e =>
    if s.todo = [] ∧ s.log.pc ip = .idle then
      some { s with todo := hookBodies d e, printed := s.printed ++ [.hook e] }
    else none
  | .other body =>
    if s.todo = [] ∧ s.log.pc ip = .idle ∧ OtherLine body.bytes ∧ Printable body then
      some { s with todo := [body], printed := s.printed ++ [.other body] }
    else none
  | .print =>
    match s.todo with
    | [] => none
    | body :: todo =>
      (step names s.log (.task ip (.call body))).map fun log => { s with log, todo }
  | .kernel l =>
    if callsFrom ip l = false ∧ PrintsPlain s.log l then
      (step names s.log l).map fun log => { s with log }
    else none

def hookSystem (d : DottedNotation) (names : T → CString) (ip : T) :
    TransitionSystem (HookState T) (HookLabel T) where
  init s := (loggingSystem names).init s.log ∧ s.todo = [] ∧ s.printed = []
  step := hookStep d names ip

variable {d : DottedNotation} {names : T → CString} {ip : T} {s s' : HookState T}

omit [DecidableEq T] in
theorem printable_hookBodies (e : Event) : ∀ body ∈ hookBodies d e, Printable body := by
  have haddr : ∀ {m : List Byte} (a : UInt32), CR ∉ m → m.length ≤ 100 →
      CR ∉ m ++ (d.inet_ntoa a).bytes ∧ (m ++ (d.inet_ntoa a).bytes).length ≤ 218 := by
    intro m a hm hlen
    have hfits := d.fits a
    refine ⟨fun h => (List.mem_append.mp h).elim hm (d.no_cr a), ?_⟩
    rw [List.length_append]
    omega
  have hlines : ∀ l ∈ hookLines d e, CR ∉ l ∧ l.length ≤ 218 := by
    cases e with
    | eNetworkUp c =>
      simp only [hookLines, vApplicationIPNetworkEventUp, List.forall_mem_cons]
      refine ⟨by decide, haddr _ ?_ ?_, haddr _ ?_ ?_, haddr _ ?_ ?_, haddr _ ?_ ?_, by simp⟩ <;>
        decide
    | eNetworkDown =>
      simp only [hookLines, List.forall_mem_singleton]
      decide
    | pingReply eStatus x =>
      have hmsg : CR ∉ eStatus.message ∧ eStatus.message.length ≤ 100 := by
        cases eStatus <;> decide
      have hnum := decimal_length_le (k := 5) (n := x.toNat) (by decide)
        (x.toNat_lt.trans (by decide))
      simp only [hookLines, List.forall_mem_singleton, vApplicationPingReplyHook, List.mem_append,
        not_or, List.length_append]
      exact ⟨⟨hmsg.1, not_mem_decimal (by decide)⟩, by omega⟩
    | dhcp eDHCPPhase =>
      simp only [hookLines, List.forall_mem_singleton]
      cases eDHCPPhase <;> decide
  intro body hb
  obtain ⟨l, hl, rfl⟩ := List.mem_pmap.mp hb
  exact printable_of_no_cr (hlines l hl).1 (hlines l hl).2

theorem called_of_callsFrom {log log' : State T} {l : Label T} (hl : callsFrom ip l = false)
    (h : step names log l = some log') :
    log'.kernel.hist.called ip = log.kernel.hist.called ip := by
  by_cases hc : ∃ t body, l = .task t (.call body)
  · obtain ⟨t, body, rfl⟩ := hc
    have ht : t ≠ ip := of_decide_eq_false hl
    rw [called_of_call h, Function.update_of_ne ht.symm]
  · simp only [not_exists] at hc
    rw [called_of_not_call hc h]

structure HookInv (d : DottedNotation) (ip : T) (s : HookState T) : Prop where
  order : s.log.kernel.hist.called ip ++ s.todo = s.printed.flatMap (Printout.bodies d)
  told : ∀ x ∈ s.printed, x.Told
  plain : ∀ body ∈ s.todo, Printable body

theorem hookInv_step {l : HookLabel T} (hI : HookInv d ip s)
    (h : hookStep d names ip s l = some s') : HookInv d ip s' := by
  have hmore : ∀ {x : Printout}, s.todo = [] →
      s.log.kernel.hist.called ip ++ x.bodies d =
        (s.printed ++ [x]).flatMap (Printout.bodies d) := by
    intro x htodo
    have horder := hI.order
    rw [htodo, List.append_nil] at horder
    rw [List.flatMap_append, horder, List.flatMap_singleton]
  have htold : ∀ {x : Printout}, x.Told → ∀ y ∈ s.printed ++ [x], y.Told := by
    intro x hx y hy
    rcases List.mem_append.mp hy with hy | hy
    · exact hI.told y hy
    · exact List.mem_singleton.mp hy ▸ hx
  cases l with
  | hook e =>
    obtain ⟨⟨htodo, -⟩, h⟩ := Option.ite_none_right_eq_some.mp h
    obtain rfl := Option.some.inj h
    exact ⟨hmore (x := .hook e) htodo, htold (x := .hook e) trivial, printable_hookBodies e⟩
  | other body =>
    obtain ⟨⟨htodo, -, hother, hplain⟩, h⟩ := Option.ite_none_right_eq_some.mp h
    obtain rfl := Option.some.inj h
    exact ⟨hmore (x := .other body) htodo, htold (x := .other body) hother, fun b hb =>
      List.mem_singleton.mp hb ▸ hplain⟩
  | print =>
    simp only [hookStep] at h
    split at h
    · exact absurd h (by simp)
    · rename_i body todo htodo
      obtain ⟨log, hlog, rfl⟩ := Option.map_eq_some_iff.mp h
      refine ⟨?_, hI.told, fun b hb => hI.plain b (htodo ▸ List.mem_cons_of_mem _ hb)⟩
      change log.kernel.hist.called ip ++ todo = _
      rw [called_of_call hlog, Function.update_self, List.append_assoc, List.singleton_append,
        ← htodo]
      exact hI.order
  | kernel l =>
    -- such a step is no new call of the IP task
    obtain ⟨⟨hfrom, -⟩, h⟩ := Option.ite_none_right_eq_some.mp h
    obtain ⟨log, hlog, rfl⟩ := Option.map_eq_some_iff.mp h
    refine ⟨?_, hI.told, hI.plain⟩
    change log.kernel.hist.called ip ++ s.todo = _
    rw [called_of_callsFrom hfrom hlog]
    exact hI.order

theorem reachable_hookInv (h : (hookSystem d names ip).Reachable s) : HookInv d ip s := by
  refine h.invariant (fun s hs => ?_)
    (fun s l s' _ hI _ (hs : hookStep d names ip s l = some s') => hookInv_step hI hs)
  obtain ⟨⟨ucRxData, -, hlog⟩, htodo, hprinted⟩ := hs
  refine ⟨?_, by simp [hprinted], by simp [htodo]⟩
  rw [hlog, htodo, hprinted]
  rfl

theorem hook_refines_logging (h : (hookSystem d names ip).Reachable s) :
    (loggingSystem names).ReachableBy PrintsPlain s.log := by
  refine h.refine (N := loggingSystem names) (f := HookState.log) (fun s (hs : _ ∧ _) => hs.1)
    (fun s l s' hr _ (hs : hookStep d names ip s l = some s') => ?_)
  cases l with
  | hook e =>
    obtain ⟨-, hs⟩ := Option.ite_none_right_eq_some.mp hs
    exact .inl (Option.some.inj hs ▸ rfl)
  | other body =>
    obtain ⟨-, hs⟩ := Option.ite_none_right_eq_some.mp hs
    exact .inl (Option.some.inj hs ▸ rfl)
  | print =>
    simp only [hookStep] at hs
    split at hs
    · exact absurd hs (by simp)
    · rename_i body todo htodo
      obtain ⟨log, hlog, rfl⟩ := Option.map_eq_some_iff.mp hs
      have hplain := (reachable_hookInv hr).plain body (htodo ▸ List.mem_cons_self)
      exact .inr ⟨.task ip (.call body), printsPlain_of_body rfl hplain, hlog⟩
  | kernel l =>
    obtain ⟨⟨-, hplain⟩, hs⟩ := Option.ite_none_right_eq_some.mp hs
    obtain ⟨log, hlog, rfl⟩ := Option.map_eq_some_iff.mp hs
    exact .inr ⟨l, hplain, hlog⟩

/-- The network events can be read back from the log: whatever part of the output a reader has
seen, it finds the first events that the IP task was told of, with their addresses, identifiers
and phases, and between calls it finds them all. -/
theorem events_read_back (hn : ∀ t, PlainName (names t)) (hinj : Function.Injective names)
    (h : (hookSystem d names ip).Reachable s) :
    (∀ text, text <+: s.log.kernel.hist.accepted →
      readEvents d (journalOf (names ip) text) <+: s.printed.filterMap Printout.event) ∧
    (s.todo = [] → s.log.pc ip = .idle →
      readEvents d (journalOf (names ip) s.log.kernel.hist.accepted) =
        s.printed.filterMap Printout.event) := by
  have hI := reachable_hookInv h
  have hplain := hook_refines_logging h
  have hlines : (s.log.kernel.hist.called ip).map CString.bytes ++ s.todo.map CString.bytes =
      s.printed.flatMap (Printout.lines d) := by
    rw [← List.map_append, hI.order, List.map_flatMap]
    exact List.flatMap_congr fun x _ => map_bytes_bodies d x
  refine ⟨fun text ht => ?_, fun htodo hidle => ?_⟩
  · apply readEvents_isPrefix hI.told
    rw [← hlines]
    exact (journalOf_isPrefix hn hinj hplain ip ht).trans (List.prefix_append _ _)
  · have hall := journalOf_accepted hn hinj hplain ip
    have hflight : (s.log.pc ip).inFlight = [] := by rw [hidle]; rfl
    rw [hflight, List.map_nil, List.append_nil] at hall
    rw [htodo, List.map_nil, List.append_nil] at hlines
    rw [hall, hlines, readEvents_all hI.told]

end System

/-- `"%u.%u.%u.%u"`, lowest byte first. -/
def dotted (a : UInt32) : List Byte :=
  decimal (a.toNat % 256) ++ (ascii "." ++ (decimal (a.toNat / 256 % 256) ++ (ascii "." ++
    (decimal (a.toNat / 65536 % 256) ++ (ascii "." ++ decimal (a.toNat / 16777216))))))

def undotted (text : List Byte) : Option UInt32 := do
  let (b0, s) ← parseDecimal text
  let (b1, s) ← (skip (ascii ".") s).bind parseDecimal
  let (b2, s) ← (skip (ascii ".") s).bind parseDecimal
  let s ← skip (ascii ".") s
  some (UInt32.ofNat (b0 + 256 * b1 + 65536 * b2 + 16777216 * value s))

theorem undotted_dotted (a : UInt32) : undotted (dotted a) = some a := by
  have hnum : ∀ n s, parseDecimal (decimal n ++ (ascii "." ++ s)) = some (n, ascii "." ++ s) :=
    fun n s => parseDecimal_decimal n (b := 0x2e) (by decide) s
  have hbytes : a.toNat % 256 + 256 * (a.toNat / 256 % 256) + 65536 * (a.toNat / 65536 % 256) +
      16777216 * (a.toNat / 16777216) = a.toNat := by omega
  simp only [undotted, dotted, hnum, skip_append, Option.bind_eq_bind, Option.bind_some,
    value_decimal, hbytes, UInt32.ofNat_toNat]

theorem not_mem_dotted {a : UInt32} {b : Byte} (hd : isDigit b = false) (hb : b ≠ 0x2e) :
    b ∉ dotted a := by
  have hdot : ascii "." = [0x2e] := by decide
  simp [dotted, hdot, not_mem_decimal hd, hb]

theorem dotted_length_le (a : UInt32) : (dotted a).length ≤ 15 := by
  have hlt := a.toNat_lt
  have hdigits : ∀ n < 256, (decimal n).length ≤ 3 := fun n hn =>
    decimal_length_le (by decide) (hn.trans (by decide))
  have h0 := hdigits (a.toNat % 256) (by omega)
  have h1 := hdigits (a.toNat / 256 % 256) (by omega)
  have h2 := hdigits (a.toNat / 65536 % 256) (by omega)
  have h3 := hdigits (a.toNat / 16777216) (by omega)
  have hdot : (ascii ".").length = 1 := by decide
  simp only [dotted, List.length_append, hdot]
  omega

def dottedNotation : DottedNotation where
  inet_ntoa a := ⟨dotted a, not_mem_dotted (by decide) (by decide)⟩
  inet_addr := undotted
  addr_ntoa := undotted_dotted
  fits a := Nat.lt_succ_of_le (dotted_length_le a)
  no_cr _ := not_mem_dotted (by decide) (by decide)

def printNext : List (HookLabel Bool) :=
  .print :: [.number, .stamp, .take, .check, .send, .give].map fun a => .kernel (.task true a)

/-- The network comes up, the library prints a message, and a ping is answered. -/
def networkRun : List (HookLabel Bool) :=
  [.kernel .start, .hook (.eNetworkUp ⟨0x0a01a8c0, 0x00ffffff, 0x0101a8c0, 0x08080808⟩)] ++
    (List.replicate 5 printNext).flatten ++ [.other hello] ++ printNext ++
    [.hook (.pingReply .eSuccess 7)] ++ printNext

theorem events_read_back_networkRun :
    ∃ s, (hookSystem dottedNotation twoNames true).exec ⟨startState, [], []⟩ networkRun = some s ∧
      readEvents dottedNotation (journalOf (twoNames true) s.log.kernel.hist.accepted) =
        s.printed.filterMap Printout.event := by
  have hrun : ((hookSystem dottedNotation twoNames true).exec ⟨startState, [], []⟩ networkRun).map
      (fun s => (s.todo, s.log.pc true)) = some ([], .idle) := by decide +kernel
  obtain ⟨s, hs, hproj⟩ := Option.map_eq_some_iff.mp hrun
  obtain ⟨htodo, hidle⟩ := Prod.mk.inj hproj
  have hinit : (hookSystem dottedNotation twoNames true).Reachable ⟨startState, [], []⟩ :=
    .init ⟨⟨_, rfl, rfl⟩, rfl, rfl⟩
  exact ⟨s, hs, (events_read_back plainName_twoNames twoNames_injective (hinit.exec hs)).2
    htodo hidle⟩

end Stm32f7Renode.NetworkHooks
