import CsarCore.Framework.Except
import CsarCore.Impl.TokenMint.Profile
import Mathlib.Tactic.NormNum
import Mathlib.Tactic.SplitIfs

/-!
# What `Validate` guarantees

`validateProfile_ok` is what a profile must be to pass. Every profile of a valid
configuration has its defaults and was checked (`valid_profile`), so its settings are
positive and its haircut is in `(0, 1]` (`settled_of_valid`).
-/

namespace Csar.Proof.TokenMint

open Impl.TokenMint

variable {lib : Lib} {c d : Config} {name : Bytes} {p : Profile}

theorem validateProfile_ok : c.validateProfile lib name p = .ok () ↔
    lib.trimSpace name ≠ [] ∧ ∃ u, lib.parseUrl p.tokenURL = .ok u ∧ u.host ≠ "" ∧
      (u.scheme = "https" ∨ c.allowPrivate = true) ∧ c.hostAllowed lib u.hostname = true ∧
      (p.bodyStyle = "json" ∨ p.bodyStyle = "form") ∧ 0 < p.expiresInHaircut ∧ p.expiresInHaircut ≤ 1 ∧
      0 < p.timeout ∧ 0 < p.maxResponseBytes ∧ 1 ≤ p.secretRefScopeSegments ∧
      p.refreshMargin < p.defaultExpiresIn := by
  unfold Config.validateProfile
  rw [ite_error_eq_ok]
  rcases hu : lib.parseUrl p.tokenURL with e | u
  · simp
  · simp only [ite_error_eq_ok, not_and_or, not_or, not_not, not_le, not_lt, Bool.not_eq_false, ge_iff_le,
      Except.ok.injEq, exists_eq_left', and_true, and_assoc, ne_eq]

theorem validateProfiles_ok {rows : List (Bytes × Profile)} :
    c.validateProfiles lib rows = .ok () ↔ ∀ r ∈ rows, c.validateProfile lib r.1 r.2 = .ok () := by
  induction rows with
  | nil => simp [Config.validateProfiles]
  | cons r rows ih =>
    obtain ⟨name, p⟩ := r
    unfold Config.validateProfiles
    rcases h : c.validateProfile lib name p with e | ⟨⟩
    · simp [h]
    · simp only [List.forall_mem_cons, h, true_and, ih]

theorem validate_ok : c.validate lib = .ok d ↔
    c.profiles.rows ≠ [] ∧
    d = { c.applyDefaults with hosts := (c.allowedHosts.map lib.trimLower).filter fun h => h != "" } ∧
    ∀ r ∈ d.profiles.rows, d.validateProfile lib r.1 r.2 = .ok () := by
  unfold Config.validate
  split_ifs with hr
  · simp [hr]
  · simp only [ne_eq, hr, not_false_eq_true, true_and, ← validateProfiles_ok]
    split
    · rename_i e he
      refine ⟨by rintro ⟨⟩, ?_⟩
      rintro ⟨rfl, hok⟩
      cases he.symm.trans hok
    · rename_i he
      constructor
      · rintro ⟨⟩; exact ⟨rfl, he⟩
      · rintro ⟨rfl, -⟩; rfl

theorem valid_profile (cfg : ValidConfig lib) (h : cfg.profile name = some p) :
    (∃ q : Profile, p = q.withDefaults) ∧ cfg.validateProfile lib name p = .ok () := by
  obtain ⟨raw, hraw⟩ := cfg.valid
  obtain ⟨-, hcfg, hok⟩ := validate_ok.mp hraw
  obtain ⟨⟨n, q⟩, hfind, rfl⟩ := Option.map_eq_some_iff.mp h
  obtain ⟨hmem, rfl⟩ := Table.find?_eq_some.mp hfind
  refine ⟨?_, hok _ hmem⟩
  rw [hcfg] at hmem
  obtain ⟨⟨n', q'⟩, -, e⟩ := List.mem_map.mp hmem
  cases e
  exact ⟨q', rfl⟩

/-- Settings that a minter can work with. -/
structure Settled (p : Profile) : Prop where
  haircut_pos : 0 < p.expiresInHaircut
  haircut_le : p.expiresInHaircut ≤ 1
  refreshMargin : 0 < p.refreshMargin
  margin_lt : p.refreshMargin < p.defaultExpiresIn
  minRefreshInterval : 0 < p.minRefreshInterval
  errorBackoffBase : 0 < p.errorBackoffBase
  errorBackoffMax : 0 < p.errorBackoffMax
  authErrorBackoff : 0 < p.authErrorBackoff
  idleTTL : 0 < p.idleTTL

theorem positiveOr_pos {n default : Int} (h : 0 < default) : 0 < positiveOr n default := by
  unfold positiveOr
  split <;> omega

theorem settled_of_valid (cfg : ValidConfig lib) (h : cfg.profile name = some p) : Settled p := by
  obtain ⟨⟨q, rfl⟩, hok⟩ := valid_profile cfg h
  obtain ⟨-, u, -, -, -, -, -, hpos, hle, -, -, -, hm⟩ := validateProfile_ok.mp hok
  exact ⟨hpos, hle, positiveOr_pos (by decide), hm, positiveOr_pos (by decide), positiveOr_pos (by decide),
    positiveOr_pos (by decide), positiveOr_pos (by decide), positiveOr_pos (by decide)⟩

/-! ## A configuration to look at -/

/-- A URL is its host, and the first byte of a body the lifetime of the token `t` in seconds; 0 is for
half a second. -/
def sampleLib : Lib where
  trimSpace := id
  toLower := id
  trimLower := id
  equalFold := (· == ·)
  parseUrl u := .ok ⟨"https", u, u⟩
  unmarshal body := body.head?.map fun b => [("access_token", .str "t"),
    ("expires_in", .num (if b = 0 then ⟨1, 2, by decide, by decide⟩ else b.toNat))]
  errorField _ := none
  parseFloat _ := none
  atoi _ := none
  untilHTTPDate _ := none
  float64ToInt64 _ := minInt64
  sum256 bs := (Vector.replicate 32 0).set 0 (bs.getLastD 0)
  quoteBytes _ := ""
  quote := id
  formatFloat _ := ""
  formatDuration _ := ""
  formatTime _ := ""

def sampleProfile : Profile :=
  ⟨"idp", "", [], "", "", "", "", "", "", 0, 0, 0, 0, 0, 0, 0, 0, 0, 0, 0, 0⟩

theorem sampleProfile_haircut : sampleProfile.withDefaults.expiresInHaircut = 9 / 10 := rfl

def profilesNamed (names : List Bytes) (hn : names.Nodup) (p : Profile) : Table (Bytes × Profile) Prod.fst :=
  ⟨names.map fun n => (n, p), by
    have : Prod.fst ∘ (fun n : Bytes => (n, p)) = id := rfl
    rw [List.map_map, this, List.map_id]
    exact hn⟩

/-- The configuration that `Validate` makes of it. -/
def sampleConfig (names : List Bytes) (hn : names.Nodup) (h0 : names ≠ []) (hne : [] ∉ names) :
    ValidConfig sampleLib where
  allowedHosts := ["idp"]
  allowPrivate := false
  profiles := profilesNamed names hn sampleProfile.withDefaults
  hosts := ["idp"]
  valid := by
    refine ⟨⟨["idp"], false, profilesNamed names hn sampleProfile, []⟩, validate_ok.mpr ⟨?_, ?_, ?_⟩⟩
    · simpa [profilesNamed] using h0
    · simp [Config.applyDefaults, Table.updateWhere, profilesNamed, sampleLib]
    · simp only [profilesNamed, List.forall_mem_map]
      intro n hmem
      refine validateProfile_ok.mpr ⟨fun e => hne (e ▸ hmem), _, rfl, by decide, .inl rfl, rfl, by decide,
        ?_, ?_, by decide, by decide, by decide, by decide⟩ <;> rw [sampleProfile_haircut] <;> norm_num

end Csar.Proof.TokenMint
