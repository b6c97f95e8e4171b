import Beez.Sandbox.Socks

/-! # Where the proxies connect to -/

open Beez.Lib

namespace Beez.Sandbox

/-- The two proxies of a sandbox. -/
inductive Protocol where
  | http | socks

def serve : Protocol → Rules → Resolver → ProxyM Unit
  | .http => serveHttp
  | .socks => serveSocks

/-- The messages with which a proxy refuses. -/
def Refusal : Protocol → List Byte → Prop
  | .http, bytes => bytes = response "400 Bad Request" ∨ bytes = response "403 Forbidden"
  | .socks, bytes => bytes = [socksVersion, socksNoAcceptableAuth] ∨
      ∃ status, status ≠ socksSucceeded ∧ bytes = socksAnswer status

/-! ## What an exchange did -/

def dialOf : Op × Option ErrorKind → Option (SocketAddr × Option ErrorKind)
  | (.connect address, outcome) => some (address, outcome)
  | _ => none

/-- The upstream connections it attempted, and how each ended. -/
def Exchange.dials (exchange : Exchange) : List (SocketAddr × Option ErrorKind) :=
  exchange.log.filterMap dialOf

def sentOf : Op × Option ErrorKind → Option (List Byte)
  | (.send bytes, none) => some bytes
  | _ => none

/-- The last message that reached the client. -/
def Exchange.lastSent (exchange : Exchange) : Option (List Byte) :=
  (exchange.log.filterMap sentOf).getLast?

/-- An address resolved for a host and port that a rule names. -/
structure Allowed (rules : Rules) (resolver : Resolver) (address : SocketAddr) : Prop where
  named : ∃ host port addresses, (∃ rule ∈ rules.domains, rule.matches host port = true) ∧
    resolver host port = .ok addresses ∧ address ∈ addresses
  remote : rules.localhost = false → ¬Reserved address.ip

/-- The client got a refusal as its last message. -/
def Refused (proxy : Protocol) (exchange : Exchange) : Prop :=
  ∃ bytes, Refusal proxy bytes ∧ exchange.lastSent = some bytes

def Connected (exchange : Exchange) : Prop := ∃ address, (address, none) ∈ exchange.dials

variable {proxy : Protocol} {rules : Rules} {resolver : Resolver} {exchange : Exchange} {α : Type}

/-- Every upstream connection it attempted was to an allowed address. -/
def Sound (rules : Rules) (resolver : Resolver) (exchange : Exchange) : Prop :=
  ∀ dial ∈ exchange.dials, Allowed rules resolver dial.1

structure Ended (proxy : Protocol) (rules : Rules) (resolver : Resolver)
    (result : Except ErrorKind Unit) (exchange : Exchange) : Prop where
  sound : Sound rules resolver exchange
  settled : Connected exchange ∨ (∃ error, result = .error error) ∨ Refused proxy exchange

/-! ## What leaves the connections alone -/

theorem dials_did {op : Op} (h : ∀ address, op ≠ .connect address) :
    (exchange.did op).dials = exchange.dials := by
  cases op with
  | connect address => exact absurd rfl (h address)
  | _ => simp [Exchange.did, Exchange.dials, dialOf]

theorem perform_run (op : Op) :
    (perform op exchange).2 = exchange.did op ∧
      ((perform op exchange).1 = .ok () ↔ exchange.outcomes.headD none = none) := by
  unfold perform
  cases exchange.outcomes.headD none with
  | none => simp
  | some error => simp

theorem perform_leaves {op : Op} (h : ∀ address, op ≠ .connect address) :
    Leaves Exchange.dials (perform op) := by
  intro exchange
  rw [(perform_run op).1, dials_did h]

theorem caught_leaves {x : ProxyM α} (h : Leaves Exchange.dials x) :
    Leaves Exchange.dials (caught x) := h

theorem readExact_leaves (size : Nat) : Leaves Exchange.dials (readExact size) := fun _ => rfl

theorem readHead_leaves : Leaves Exchange.dials readHead := fun _ => rfl

theorem diagnose_leaves (diagnostic : Diagnostic) : Leaves Exchange.dials (diagnose diagnostic) :=
  fun _ => rfl

theorem report_run (target : Target) (exchange : Exchange) :
    report target exchange = (.ok (), (report target exchange).2) := by
  rw [report, run_get_bind]
  split
  · rfl
  · rfl

theorem report_leaves (target : Target) : Leaves Exchange.dials (report target) := by
  intro exchange
  rw [report, run_get_bind]
  split
  · rfl
  · rfl

theorem permits_leaves (host : Text) (port : BitVec 16) :
    Leaves Exchange.dials (permits rules host port) := by
  unfold permits
  split
  · exact .pure true
  · exact (report_leaves _).bind fun _ => .pure false

theorem permitsAddress_leaves (host : Text) (address : IpAddr) :
    Leaves Exchange.dials (permitsAddress rules host address) := by
  unfold permitsAddress
  split
  · exact .pure true
  · exact (report_leaves _).bind fun _ => .pure false

theorem respond_leaves (status : String) : Leaves Exchange.dials (respond status) :=
  (perform_leaves (by simp)).bind fun _ => perform_leaves (by simp)

theorem socksReply_leaves (status : Byte) : Leaves Exchange.dials (socksReply status) :=
  (perform_leaves (by simp)).bind fun _ => perform_leaves (by simp)

theorem tunnel_leaves (forward : Option Text) (earlyBody : List Byte) :
    Leaves Exchange.dials (tunnel forward earlyBody) := by
  have rest : Leaves Exchange.dials (do perform (.forward earlyBody); perform .pipe) :=
    (perform_leaves (by simp)).bind fun _ => perform_leaves (by simp)
  refine (perform_leaves (by simp)).bind fun _ => ?_
  cases forward with
  | some head => exact (perform_leaves (by simp)).bind fun _ => rest
  | none =>
    exact (perform_leaves (by simp)).bind fun _ => (perform_leaves (by simp)).bind fun _ => rest

theorem negotiateAuth_leaves : Leaves Exchange.dials negotiateAuth := by
  unfold negotiateAuth
  refine (readExact_leaves 2).bind fun greeting => ?_
  split
  · exact .throw _
  · refine (readExact_leaves _).bind fun methods => ?_
    split
    · exact (perform_leaves (by simp)).bind fun _ => .pure _
    · exact (perform_leaves (by simp)).bind fun _ => .pure _

theorem refuseLiteral_leaves (size : Nat) (diagnostic : Diagnostic) :
    Leaves Exchange.dials (refuseLiteral size diagnostic) :=
  (readExact_leaves size).bind fun _ => (diagnose_leaves diagnostic).bind fun _ =>
    (socksReply_leaves _).bind fun _ => .pure none

theorem readTarget_leaves : Leaves Exchange.dials readTarget := by
  unfold readTarget
  refine (readExact_leaves 4).bind fun request => ?_
  split
  · exact (socksReply_leaves _).bind fun _ => .pure none
  dsimp only
  split
  · refine Leaves.bind ((readExact_leaves 1).bind fun length => ?_) fun host => ?_
    · exact (readExact_leaves _).bind fun name => .pure _
    · exact (readExact_leaves 2).bind fun port => .pure _
  split
  · exact refuseLiteral_leaves 6 _
  split
  · exact refuseLiteral_leaves 18 _
  · exact (socksReply_leaves _).bind fun _ => .pure none

/-! ## Connecting -/

theorem permitsAddress_run {host : Text} {address : IpAddr} :
    (permitsAddress rules host address exchange).1 = .ok (rules.localhost || !isLocal address) := by
  unfold permitsAddress
  split
  · next h =>
    rw [h]
    rfl
  · next h =>
    rw [Bool.not_eq_true] at h
    rw [h]
    have hrun := (report_run (.address host address) exchange)
    rw [run_bind_ok hrun]
    rfl

/-- Nothing interrupts a proxy. -/
def Never (_ : ErrorKind) (_ : Exchange) : Prop := False

theorem sound_of_dials {exchange' : Exchange} (h : exchange'.dials = exchange.dials)
    (sound : Sound rules resolver exchange) : Sound rules resolver exchange' := by
  unfold Sound
  rw [h]
  exact sound

theorem dials_connect (address : SocketAddr) : (exchange.did (.connect address)).dials =
    exchange.dials ++ [(address, exchange.outcomes.headD none)] := by
  simp [Exchange.did, Exchange.dials, dialOf]

theorem dial_sound {address : SocketAddr} (sound : Sound rules resolver exchange)
    (allowed : Allowed rules resolver address) :
    Sound rules resolver (exchange.did (.connect address)) := by
  unfold Sound
  rw [dials_connect]
  intro dial hdial
  rcases List.mem_append.mp hdial with h | h
  · exact sound dial h
  · rw [List.mem_singleton.mp h]
    exact allowed

theorem dial_leads {address : SocketAddr} (sound : Sound rules resolver exchange)
    (allowed : Allowed rules resolver address) :
    Leads Never (caught (perform (.connect address))) exchange fun result exchange' =>
      Sound rules resolver exchange' ∧ ∃ answer, result = .ok answer ∧
        (answer = .ok () → Connected exchange') := by
  refine .inl ⟨?_, _, rfl, fun h => ?_⟩
  · have := dial_sound sound allowed
    rwa [← (perform_run (.connect address)).1] at this
  · refine ⟨address, ?_⟩
    change (address, none) ∈ (perform (.connect address) exchange).2.dials
    rw [(perform_run _).1, dials_connect, (perform_run _).2.mp h]
    simp

theorem connectFirst_leads {host : Text} {lastError : ErrorKind} {addresses : List SocketAddr}
    (named : ∀ address ∈ addresses, (rules.localhost = false → ¬Reserved address.ip) →
      Allowed rules resolver address)
    (sound : Sound rules resolver exchange) :
    Leads Never (connectFirst rules host lastError addresses) exchange fun result exchange' =>
      Sound rules resolver exchange' ∧ (result = .ok () → Connected exchange') := by
  induction addresses generalizing lastError exchange with
  | nil => exact .inl ⟨sound, fun h => by cases h⟩
  | cons address rest ih =>
    have ih := fun {lastError exchange} => @ih exchange lastError fun a ha => named a (by simp [ha])
    have first : Leads Never (permitsAddress rules host address.ip) exchange fun result exchange' =>
        Sound rules resolver exchange' ∧ result = .ok (rules.localhost || !isLocal address.ip) :=
      .inl ⟨sound_of_dials (permitsAddress_leaves host address.ip exchange) sound,
        permitsAddress_run⟩
    unfold connectFirst
    refine first.bind (fun error exchange' h => by cases h.2) fun permitted exchange' h => ?_
    obtain ⟨sound', hpermitted⟩ := h
    rw [Except.ok.injEq] at hpermitted
    cases permitted with
    | false => exact ih sound'
    | true =>
      have allowed : Allowed rules resolver address := by
        refine named address (by simp) fun hlocal => ?_
        rw [← isLocal_iff]
        simpa [hlocal] using hpermitted.symm
      refine (dial_leads sound' allowed).bind (fun error _ h => ?_) fun answer exchange'' h => ?_
      · obtain ⟨-, _, h, -⟩ := h
        cases h
      · obtain ⟨sound'', answer', heq, connected⟩ := h
        rw [Except.ok.injEq] at heq
        subst heq
        cases answer with
        | ok _ => exact .inl ⟨sound'', fun _ => connected rfl⟩
        | error error => exact ih sound''

theorem connect_leads {host : Text} {port : BitVec 16}
    (named : ∃ rule ∈ rules.domains, rule.matches host port = true)
    (sound : Sound rules resolver exchange) :
    Leads Never (connect rules resolver host port) exchange fun result exchange' =>
      Sound rules resolver exchange' ∧ (result = .ok () → Connected exchange') := by
  unfold connect
  cases hresolved : resolver host port with
  | error error => exact .inl ⟨sound, fun h => by cases h⟩
  | ok addresses =>
    have hrun : (do connectFirst rules host .notFound (← liftM (.ok addresses : Except _ _)) :
        ProxyM Unit) exchange = connectFirst rules host .notFound addresses exchange :=
      run_bind_ok run_lift_ok
    refine Leads.of_run_eq hrun (connectFirst_leads (fun address h remote => ?_) sound)
    exact ⟨⟨host, port, addresses, named, hresolved, h⟩, remote⟩

/-! ## Refusing -/

theorem lastSent_send {bytes : List Byte} (h : exchange.outcomes.headD none = none) :
    (exchange.did (.send bytes)).lastSent = some bytes := by
  unfold Exchange.did Exchange.lastSent
  rw [h]
  simp [sentOf]

theorem lastSent_flush : (exchange.did .flush).lastSent = exchange.lastSent := by
  simp [Exchange.did, Exchange.lastSent, sentOf]

theorem send_leads (bytes : List Byte) :
    Leads Never (perform (.send bytes)) exchange fun result exchange' =>
      result = .ok () → exchange'.lastSent = some bytes := by
  refine .inl fun h => ?_
  rw [(perform_run _).1]
  exact lastSent_send ((perform_run _).2.mp h)

/-- `respond` and `socksReply` both send one message and flush it. -/
theorem answer_leads (bytes : List Byte) :
    Leads Never (do perform (.send bytes); perform .flush) exchange fun result exchange' =>
      result = .ok () → exchange'.lastSent = some bytes := by
  refine (send_leads bytes).bind (fun error _ _ h => by cases h) fun _ exchange' sent => ?_
  refine .inl fun _ => ?_
  rw [(perform_run _).1, lastSent_flush]
  exact sent rfl

theorem negotiateAuth_leads :
    Leads Never negotiateAuth exchange fun result exchange' =>
      result = .ok false → Refused .socks exchange' := by
  unfold negotiateAuth
  refine Leads.after (fun error _ h => by cases h) fun greeting exchange' _ => ?_
  split
  · exact .inl fun h => by cases h
  refine Leads.after (fun error _ h => by cases h) fun methods exchange'' _ => ?_
  split
  · refine (send_leads _).bind (fun error _ _ h => by cases h) fun _ exchange' sent => ?_
    exact .inl fun _ => ⟨_, .inl rfl, sent rfl⟩
  · refine Leads.after (fun error _ h => by cases h) fun _ exchange' _ => ?_
    exact .inl fun h => by cases h

theorem refuse_leads {status : Byte} (h : status ≠ socksSucceeded) :
    Leads Never (do socksReply status; return none : ProxyM (Option (Text × BitVec 16))) exchange
      fun result exchange' => result = .ok none → Refused .socks exchange' := by
  refine (answer_leads (socksAnswer status)).bind (fun error _ _ h => by cases h) ?_
  exact fun _ exchange' sent => .inl fun _ => ⟨_, .inr ⟨status, h, rfl⟩, sent rfl⟩

theorem readTarget_leads :
    Leads Never readTarget exchange fun result exchange' =>
      result = .ok none → Refused .socks exchange' := by
  have literal : ∀ size diagnostic exchange, Leads Never (refuseLiteral size diagnostic) exchange
      fun result exchange' => result = .ok none → Refused .socks exchange' := by
    intro size diagnostic exchange
    refine Leads.after (fun error _ h => by cases h) fun _ _ _ => ?_
    exact Leads.after (fun error _ h => by cases h) fun _ _ _ => refuse_leads (by decide)
  unfold readTarget
  refine Leads.after (fun error _ h => by cases h) fun request exchange' _ => ?_
  split
  · exact refuse_leads (by decide)
  dsimp only
  split
  · refine Leads.after (fun error _ h => by cases h) fun host _ _ => ?_
    refine Leads.after (fun error _ h => by cases h) fun port _ _ => ?_
    exact .inl fun h => by cases h
  split
  · exact literal 6 _ _
  split
  · exact literal 18 _ _
  · exact refuse_leads (by decide)

/-! ## Serving -/

/-- `x` ends as every exchange of the proxy should. -/
def Ends (proxy : Protocol) (rules : Rules) (resolver : Resolver) (x : ProxyM Unit)
    (exchange : Exchange) : Prop :=
  Leads Never x exchange (Ended proxy rules resolver)

theorem Ended.of_error {error : ErrorKind} (sound : Sound rules resolver exchange) :
    Ended proxy rules resolver (.error error) exchange :=
  ⟨sound, .inr (.inl ⟨error, rfl⟩)⟩

theorem ends_after {x : ProxyM α} {f : α → ProxyM Unit} (leaves : Leaves Exchange.dials x)
    (sound : Sound rules resolver exchange)
    (rest : ∀ a exchange', x exchange = (.ok a, exchange') → Sound rules resolver exchange' →
      Ends proxy rules resolver (f a) exchange') :
    Ends proxy rules resolver (x >>= f) exchange := by
  have first : Leads Never x exchange fun result exchange' =>
      x exchange = (result, exchange') ∧ Sound rules resolver exchange' :=
    .inl ⟨rfl, sound_of_dials (leaves exchange) sound⟩
  exact first.bind (fun _ _ h => .of_error h.2) fun a exchange' h => rest a exchange' h.1 h.2

theorem ends_throw {error : ErrorKind} (sound : Sound rules resolver exchange) :
    Ends proxy rules resolver (throw error) exchange :=
  .inl (.of_error sound)

theorem ends_connected {x : ProxyM Unit} (leaves : Leaves Exchange.dials x)
    (sound : Sound rules resolver exchange) (connected : Connected exchange) :
    Ends proxy rules resolver x exchange := by
  refine .inl ⟨sound_of_dials (leaves exchange) sound, .inl ?_⟩
  unfold Connected
  rw [leaves exchange]
  exact connected

theorem ends_answer {bytes : List Byte} (refusal : Refusal proxy bytes)
    (sound : Sound rules resolver exchange) :
    Ends proxy rules resolver (do perform (.send bytes); perform .flush) exchange := by
  have leaves : Leaves Exchange.dials (do perform (.send bytes); perform .flush) :=
    (perform_leaves (by simp)).bind fun _ => perform_leaves (by simp)
  have sent := (@answer_leads exchange bytes).of_not_stop fun _ => id
  refine .inl ⟨sound_of_dials (leaves exchange) sound, .inr ?_⟩
  cases hresult : ((do perform (.send bytes); perform .flush : ProxyM Unit) exchange).1 with
  | ok _ => exact .inr ⟨bytes, refusal, sent hresult⟩
  | error error => exact .inl ⟨error, rfl⟩

theorem permits_run {host : Text} {port : BitVec 16} {exchange' : Exchange}
    (h : permits rules host port exchange = (.ok true, exchange')) :
    ∃ rule ∈ rules.domains, rule.matches host port = true := by
  unfold permits at h
  split at h
  · next hany => exact List.any_eq_true.mp hany
  · rw [run_bind_ok (report_run _ _)] at h
    cases h

/-- The end of both proxies: what is done with the answer of `connect`. -/
theorem ends_connect {host : Text} {port : BitVec 16}
    {f : Except ErrorKind Unit → ProxyM Unit}
    (named : ∃ rule ∈ rules.domains, rule.matches host port = true)
    (sound : Sound rules resolver exchange)
    (connected : ∀ exchange', Sound rules resolver exchange' → Connected exchange' →
      Ends proxy rules resolver (f (.ok ())) exchange')
    (failed : ∀ error exchange', Sound rules resolver exchange' →
      Ends proxy rules resolver (f (.error error)) exchange') :
    Ends proxy rules resolver (caught (connect rules resolver host port) >>= f) exchange := by
  have first : Leads Never (caught (connect rules resolver host port)) exchange
      fun result exchange' => Sound rules resolver exchange' ∧
        ∃ answer, result = .ok answer ∧ (answer = .ok () → Connected exchange') :=
    have h := (connect_leads named sound).of_not_stop fun _ => id
    .inl ⟨h.1, _, rfl, h.2⟩
  refine first.bind (fun error _ h => ?_) fun answer exchange' h => ?_
  · obtain ⟨-, _, h, -⟩ := h
    cases h
  · obtain ⟨sound', answer', heq, hconnected⟩ := h
    rw [Except.ok.injEq] at heq
    subst heq
    cases answer with
    | ok _ => exact connected exchange' sound' (hconnected rfl)
    | error error => exact failed error exchange' sound'

theorem serveHttp_ends (sound : Sound rules resolver exchange) :
    Ends .http rules resolver (serveHttp rules resolver) exchange := by
  unfold serveHttp
  refine ends_after (perform_leaves (by simp)) sound fun _ exchange _ sound => ?_
  refine ends_after (caught_leaves readHead_leaves) sound fun head exchange _ sound => ?_
  rcases head with error | ⟨head, earlyBody⟩
  · exact ends_after (caught_leaves (respond_leaves _)) sound fun _ _ _ sound => ends_throw sound
  dsimp only
  cases parseRequest head with
  | none => exact ends_answer (.inl rfl) sound
  | some request =>
    refine ends_after (permits_leaves _ _) sound fun permitted exchange hpermits sound => ?_
    cases permitted with
    | false => exact ends_answer (.inr rfl) sound
    | true =>
      refine ends_connect (permits_run hpermits) sound ?_ ?_
      · exact fun _ sound connected => ends_connected (tunnel_leaves _ _) sound connected
      · intro error exchange sound
        cases error with
        | permissionDenied => exact ends_answer (.inr rfl) sound
        | _ =>
          exact ends_after (caught_leaves (respond_leaves _)) sound fun _ _ _ sound =>
            ends_throw sound

theorem serveSocks_ends (sound : Sound rules resolver exchange) :
    Ends .socks rules resolver (serveSocks rules resolver) exchange := by
  unfold serveSocks
  refine ends_after (perform_leaves (by simp)) sound fun _ exchange _ sound => ?_
  refine ends_after negotiateAuth_leaves sound fun agreed exchange' hauth sound => ?_
  cases agreed with
  | false =>
    have refused := (@negotiateAuth_leads exchange).of_not_stop fun _ => id
    rw [hauth] at refused
    exact .inl ⟨sound, .inr (.inr (refused rfl))⟩
  | true =>
    refine ends_after readTarget_leaves sound fun target exchange'' htarget sound => ?_
    rcases target with _ | ⟨host, port⟩
    · have refused := (@readTarget_leads exchange').of_not_stop fun _ => id
      rw [htarget] at refused
      exact .inl ⟨sound, .inr (.inr (refused rfl))⟩
    refine ends_after (permits_leaves _ _) sound fun permitted exchange hpermits sound => ?_
    cases permitted with
    | false => exact ends_answer (.inr ⟨socksNotAllowed, by decide, rfl⟩) sound
    | true =>
      refine ends_connect (permits_run hpermits) sound ?_ ?_
      · intro exchange sound connected
        refine ends_connected (Leaves.bind (perform_leaves (by simp)) fun _ => ?_) sound connected
        exact (socksReply_leaves _).bind fun _ => perform_leaves (by simp)
      · intro error exchange sound
        exact ends_after (caught_leaves (socksReply_leaves _)) sound fun _ _ _ sound =>
          ends_throw sound

/-- A connection that a client has just opened. -/
def Exchange.opened (reads : List (Except ErrorKind (List Byte)))
    (outcomes : List (Option ErrorKind)) (reported : List Target) : Exchange :=
  ⟨reads, outcomes, [], reported, []⟩

/-- Whatever a client sends, its proxy attempts upstream connections only to allowed addresses.
Unless one of them succeeds, the exchange ends with an error or a refusal. -/
theorem serve_ended (proxy : Protocol) (rules : Rules) (resolver : Resolver)
    (reads : List (Except ErrorKind (List Byte))) (outcomes : List (Option ErrorKind))
    (reported : List Target) :
    Ended proxy rules resolver
      (serve proxy rules resolver (.opened reads outcomes reported)).1
      (serve proxy rules resolver (.opened reads outcomes reported)).2 := by
  have sound : Sound rules resolver (.opened reads outcomes reported) := by
    simp [Sound, Exchange.opened, Exchange.dials]
  cases proxy with
  | http => exact (serveHttp_ends sound).of_not_stop fun _ => id
  | socks => exact (serveSocks_ends sound).of_not_stop fun _ => id

end Beez.Sandbox
