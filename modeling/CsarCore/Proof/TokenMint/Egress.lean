import CsarCore.Proof.Clientx.Ssrf
import CsarCore.Proof.TokenMint.Profile
import CsarCore.Spec.TokenMint

/-!
# Where a credential goes

A grant with a valid profile makes one request, to the token URL: its client follows no
redirect. Connections are to the first address of an answer without internal ones
(`dial_ok`), which may be unspecified: no class of `CheckInternalIP` has that. Where no
answer is such, a grant keeps to what it may do (`egress_iff`).
-/

namespace Csar.Proof.TokenMint

open Impl.Clientx Impl.TokenMint Csar.Net Proof.Clientx Spec.Clientx Spec.TokenMint

variable {lib : Lib} {net : NetLib} {name : Bytes} {p : Profile}

/-! ## The dial guard -/

theorem checkAll_ok {ips : List ResolvedIP} : checkAll ips = .ok () ↔ ∀ ip ∈ ips, ¬ InNets internalNets ip.1 := by
  induction ips with
  | nil => simp [checkAll]
  | cons ip ips ih =>
    rw [List.forall_mem_cons, ← checkInternalIP_ok ip.2, ← ih, checkAll]
    cases checkInternalIP ip.1 allInternalIPClasses with
    | error e => simp
    | ok => simp

theorem dial_ok {cfg : Config} (hoff : cfg.allowPrivate = false) {u : Url} {answer : Resolution} {k : Target} :
    dial lib net cfg u answer = .ok k ↔
      ∃ ip ips, answer = .ok (ip :: ips) ∧ (∀ ip' ∈ ip :: ips, ¬ InNets internalNets ip'.1) ∧ k = .address ip := by
  unfold dial
  rw [hoff]
  constructor
  · intro h
    rcases answer with e | _ | ⟨ip, ips⟩
    · cases h
    · cases h
    · cases hall : checkAll (ip :: ips) with
      | error e =>
        simp only [hall] at h
        cases h
      | ok =>
        simp only [hall] at h
        cases h
        exact ⟨ip, ips, rfl, checkAll_ok.mp hall, rfl⟩
  · rintro ⟨ip, ips, rfl, hall, rfl⟩
    simp only [checkAll_ok.mpr hall]
    rfl

/-! ## The request -/

theorem hostAllowed_named (cfg : ValidConfig lib) {host : String} (h : cfg.hostAllowed lib host = true) :
    ∃ h ∈ cfg.allowedHosts, lib.trimLower h = lib.trimLower host := by
  obtain ⟨raw, hraw⟩ := cfg.valid
  obtain ⟨-, hcfg, -⟩ := validate_ok.mp hraw
  rw [Config.hostAllowed, List.contains_iff_mem, hcfg] at h
  obtain ⟨h', hmem, heq⟩ := List.mem_map.mp (List.mem_of_mem_filter h)
  refine ⟨h', ?_, heq⟩
  rw [hcfg]
  exact hmem

theorem grantRequest_valid (cfg : ValidConfig lib) (hp : cfg.profile name = some p) (clientID clientSecret : Bytes) :
    ∃ r, grantRequest lib cfg.toConfig p clientID clientSecret = .ok r ∧ lib.parseUrl p.tokenURL = .ok r.url ∧
      cfg.hostAllowed lib r.url.hostname = true := by
  obtain ⟨-, hok⟩ := valid_profile cfg hp
  obtain ⟨-, u, hu, -, -, hhost, hstyle, -⟩ := validateProfile_ok.mp hok
  obtain ⟨req, hreq⟩ : ∃ req, buildGrantRequest p clientID clientSecret = .ok req := by
    unfold buildGrantRequest
    rcases hstyle with h | h
    · simp [h]
    · simp [h]
  refine ⟨⟨"POST", u, some req⟩, ?_, hu, hhost⟩
  rw [grantRequest, hu, hreq]
  simp only [hhost, Bool.true_eq_false, if_false]

theorem requests_opened {c : Http.Client Url GrantRequest Resolution Target} (u : Url) (dials : List Resolution) :
    requests (c.opened u dials) = [] := by
  induction dials with
  | nil => rfl
  | cons d dials ih =>
    rw [Http.Client.opened, List.filterMap_cons]
    cases c.dial u d with
    | error e => exact ih
    | ok k => exact ih

/-! ## The events -/

theorem events_doGrantOver (net : NetLib) (cfg : ValidConfig lib) (hp : cfg.profile name = some p)
    (clientID clientSecret : Bytes) (env : List (Http.Exchange Resolution Content)) :
    ∃ r, lib.parseUrl p.tokenURL = .ok r.url ∧ cfg.hostAllowed lib r.url.hostname = true ∧
      (doGrantOver lib net cfg.toConfig p clientID clientSecret env).1 =
        .requested r :: (newHTTPClient lib net cfg.toConfig).opened r.url (answers env) := by
  obtain ⟨r, hr, hu, hhost⟩ := grantRequest_valid cfg hp clientID clientSecret
  refine ⟨r, hu, hhost, ?_⟩
  rw [doGrantOver, hr]
  exact Http.Client.events_of_never_follows (fun _ _ => Http.Redirect.noConfusion) r [] env

theorem not_egress_of_unspecified (net : NetLib) (cfg : ValidConfig lib) (hoff : cfg.allowPrivate = false)
    (hp : cfg.profile name = some p) (clientID clientSecret : Bytes) {env : List (Http.Exchange Resolution Content)}
    {answer : Resolution} (hanswer : answer ∈ answers env) (h : Unspecified answer) :
    ¬ CredentialEgress lib cfg.toConfig p (doGrantOver lib net cfg.toConfig p clientID clientSecret env).1 := by
  obtain ⟨r, -, -, hevents⟩ := events_doGrantOver net cfg hp clientID clientSecret env
  obtain ⟨ip, ips, rfl, hunspec, hall⟩ := h
  have hdial : (newHTTPClient lib net cfg.toConfig).dial r.url (.ok (ip :: ips)) = .ok (.address ip) :=
    (dial_ok hoff).mpr ⟨ip, ips, rfl, hall, rfl⟩
  have hopened := Http.Client.mem_opened.mpr ⟨_, hanswer, _, hdial, rfl⟩
  intro hegress
  rw [hevents] at hegress
  obtain ⟨ip', heq, -, hnot⟩ := hegress.addresses r.url (.address ip) (List.mem_cons_of_mem _ hopened)
  cases heq
  exact hnot hunspec

/-- A credential goes where it may, exactly if no answer begins with an unspecified address and has no
internal one. -/
theorem egress_iff (lib : Lib) (net : NetLib) (cfg : ValidConfig lib) (hoff : cfg.allowPrivate = false) (name : Bytes)
    (p : Profile) (hp : cfg.profile name = some p) (clientID clientSecret : Bytes)
    (env : List (Http.Exchange Resolution Content)) :
    OneVerdict ∧ CredentialEgress lib cfg.toConfig p (doGrantOver lib net cfg.toConfig p clientID clientSecret env).1 ↔
      ∀ answer ∈ answers env, ¬ Unspecified answer := by
  rw [and_iff_right oneVerdict]
  constructor
  · intro hegress answer hanswer hunspec
    exact not_egress_of_unspecified net cfg hoff hp clientID clientSecret hanswer hunspec hegress
  · intro h
    obtain ⟨r, hu, hhost, hevents⟩ := events_doGrantOver net cfg hp clientID clientSecret env
    rw [hevents]
    have hopened : ∀ {u k}, Http.Event.opened u k ∈
        Http.Event.requested r :: (newHTTPClient lib net cfg.toConfig).opened r.url (answers env) →
        u = r.url ∧ ∃ answer ∈ answers env, dial lib net cfg.toConfig r.url answer = .ok k := by
      intro u k hmem
      rcases List.mem_cons.mp hmem with heq | hmem
      · cases heq
      · obtain ⟨answer, hanswer, k', hdial, heq⟩ := Http.Client.mem_opened.mp hmem
        cases heq
        exact ⟨rfl, answer, hanswer, hdial⟩
    refine ⟨?_, ?_, r, ?_, hu⟩
    · intro u k hmem
      obtain ⟨rfl, -⟩ := hopened hmem
      exact hostAllowed_named cfg hhost
    · intro u k hmem
      obtain ⟨-, answer, hanswer, hdial⟩ := hopened hmem
      obtain ⟨ip, ips, rfl, hall, rfl⟩ := (dial_ok hoff).mp hdial
      refine ⟨ip, rfl, hall ip List.mem_cons_self, fun hunspec => ?_⟩
      exact h _ hanswer ⟨ip, ips, rfl, hunspec, hall⟩
    · rw [requests, requests_opened]

/-! ## A grant to look at -/

def sampleNet : NetLib := ⟨id, fun _ _ => .error "", fun u => u.hostname, fun _ => ""⟩

def sampleExchange (ip : ResolvedIP) : Http.Exchange Resolution Content :=
  ⟨[.ok [ip]], .ok ⟨307, "https://elsewhere", "", .ok []⟩⟩

def sampleGrantConfig : ValidConfig sampleLib := sampleConfig [[1]] (by decide) (by decide) (by decide)

theorem egress_iff_public :
    OneVerdict ∧ CredentialEgress sampleLib sampleGrantConfig.toConfig sampleProfile.withDefaults
      (doGrantOver sampleLib sampleNet sampleGrantConfig.toConfig sampleProfile.withDefaults [2] [3]
        [sampleExchange ⟨[8, 8, 8, 8], .inl rfl⟩]).1 := by
  refine (egress_iff sampleLib sampleNet sampleGrantConfig rfl [1] sampleProfile.withDefaults rfl [2] [3] _).mpr ?_
  rintro answer hanswer ⟨ip, ips, rfl, hunspec, -⟩
  cases List.mem_singleton.mp hanswer
  exact absurd hunspec (by decide)

/-- A name with the address 0.0.0.0 is dialled there: the local host. -/
theorem unspecified_dialled :
    ¬ CredentialEgress sampleLib sampleGrantConfig.toConfig sampleProfile.withDefaults
      (doGrantOver sampleLib sampleNet sampleGrantConfig.toConfig sampleProfile.withDefaults [2] [3]
        [sampleExchange ⟨[0, 0, 0, 0], .inl rfl⟩]).1 := by
  have hp : sampleGrantConfig.profile [1] = some sampleProfile.withDefaults := rfl
  have hunspec : Unspecified (.ok [⟨[0, 0, 0, 0], .inl rfl⟩]) := by
    refine ⟨_, [], rfl, by decide, ?_⟩
    intro ip hip
    cases List.mem_singleton.mp hip
    decide
  exact not_egress_of_unspecified sampleNet sampleGrantConfig rfl hp [2] [3] List.mem_cons_self hunspec

end Csar.Proof.TokenMint
