import CsarCore.Framework.Hex

/-!
# The configuration of csar-authz

From `authzconfig/config.go`: `Config.validate` with its error texts, and what it
calls in `configutil/sections.go` and `stsclient/service.go`. `%q` (`quote`) is a
parameter.
-/

namespace Csar.Impl

/-! ## Sections of other packages -/

structure Configutil.TLSSection where
  certFile : Bytes
  keyFile : Bytes
  minVersion : Bytes

def Configutil.TLSSection.validate (quote : Bytes → Bytes) (s : TLSSection) : Except Bytes Unit :=
  if (s.certFile ≠ []) ≠ (s.keyFile ≠ []) then
    .error (utf8 "configutil: tls.cert_file and tls.key_file must both be set or both be empty")
  else if s.minVersion ≠ [] ∧ s.minVersion ≠ utf8 "1.2" ∧ s.minVersion ≠ utf8 "1.3" then
    .error (utf8 "configutil: tls.min_version must be \"1.2\" or \"1.3\", got " ++ quote s.minVersion)
  else .ok ()

/-- `stsclient.ServiceAuthConfig`: the required fields. -/
structure Stsclient.ServiceAuthConfig where
  routerBaseURL : Bytes
  stsEndpoint : Bytes
  audience : Bytes
  serviceName : Bytes
  assertionAudience : Bytes
  jwtPrivateKeyFile : Bytes
  jwtPublicKeyFile : Bytes

namespace Stsclient.ServiceAuthConfig

def requiredFields (c : ServiceAuthConfig) : List (Bytes × Bytes) :=
  [(utf8 "router_base_url", c.routerBaseURL), (utf8 "sts_endpoint", c.stsEndpoint), (utf8 "audience", c.audience),
    (utf8 "service_name", c.serviceName), (utf8 "assertion_audience", c.assertionAudience),
    (utf8 "jwt.private_key_file", c.jwtPrivateKeyFile), (utf8 "jwt.public_key_file", c.jwtPublicKeyFile)]

/-- `ServiceAuthConfig.Validate`: all or nothing. -/
def validate (c : ServiceAuthConfig) : Except Bytes Unit :=
  let filled := c.requiredFields.filter fun f => f.2 ≠ []
  let missing := c.requiredFields.filter fun f => f.2 = []
  if filled = [] then .ok ()
  else if missing = [] then .ok ()
  else .error (utf8 "service_auth: partially configured — missing: " ++
    (utf8 ", ").intercalate (missing.map Prod.fst))

def isConfigured (c : ServiceAuthConfig) : Bool := c.stsEndpoint ≠ []

end Stsclient.ServiceAuthConfig

namespace Authzconfig

structure PermissionConfig where
  resource : Bytes
  action : Bytes

structure RoleConfig where
  name : Bytes
  parents : List Bytes
  permissions : List PermissionConfig

/-- `AssignmentConfig`; only whether there are any matters. -/
structure AssignmentConfig where
  subject : Bytes
  roles : List Bytes

structure PolicyConfig where
  roles : List RoleConfig
  assignments : List AssignmentConfig

structure BootstrapAssignment where
  subject : Bytes
  role : Bytes
  scopeType : Bytes

structure StoreConfig where
  backend : Bytes
  dsn : Bytes

structure AuthnConfig where
  enabled : Bool
  jwksURL : Bytes
  publicKeyFile : Bytes

/-- `Config`: what `validate` reads. -/
structure Config where
  tls : Configutil.TLSSection
  policy : PolicyConfig
  serviceAssignableRoles : List Bytes
  bootstrapAssignments : List BootstrapAssignment
  store : StoreConfig
  authn : AuthnConfig
  audit : Stsclient.ServiceAuthConfig
  auditOutboxEnabled : Bool

/-- `name[i]`. -/
def indexed (name : String) (i : Nat) : Bytes := utf8 name ++ utf8 "[" ++ utf8 (toString i) ++ utf8 "]"

section Validate

variable (quote : Bytes → Bytes)

/-- The loop over the parents of a role. -/
def validateParents (i : Nat) (name : Bytes) (roleNames : List Bytes) : List Bytes → Except Bytes Unit
  | [] => .ok ()
  | parent :: rest =>
    if !roleNames.contains parent then
      .error (indexed "policy.roles" i ++ utf8 " (" ++ quote name ++ utf8 "): parent " ++ quote parent ++
        utf8 " not defined (must appear earlier in the list)")
    else validateParents i name roleNames rest

/-- The loop over the permissions of a role, from the `j`th on. -/
def validatePermissions (i : Nat) : Nat → List PermissionConfig → Except Bytes Unit
  | _, [] => .ok ()
  | j, p :: rest =>
    if p.resource = [] then
      .error (indexed "policy.roles" i ++ indexed ".permissions" j ++ utf8 ".resource is required")
    else if p.action = [] then
      .error (indexed "policy.roles" i ++ indexed ".permissions" j ++ utf8 ".action is required")
    else validatePermissions i (j + 1) rest

/-- The loop over the roles, from the `i`th on, with the names so far. A name is recorded before its
parents are looked up. -/
def validateRoles : Nat → List Bytes → List RoleConfig → Except Bytes (List Bytes)
  | _, roleNames, [] => .ok roleNames
  | i, roleNames, r :: rest =>
    if r.name = [] then .error (indexed "policy.roles" i ++ utf8 ".name is required")
    else if roleNames.contains r.name then
      .error (indexed "policy.roles" i ++ utf8 ": duplicate role name " ++ quote r.name)
    else do
      validateParents quote i r.name (r.name :: roleNames) r.parents
      validatePermissions i 0 r.permissions
      validateRoles (i + 1) (r.name :: roleNames) rest

def validateAssignable (roleNames : List Bytes) : Nat → List Bytes → Except Bytes Unit
  | _, [] => .ok ()
  | i, role :: rest =>
    if role = [] then .error (indexed "admin.service_assignable_roles" i ++ utf8 " is empty")
    else if !roleNames.contains role then
      .error (indexed "admin.service_assignable_roles" i ++ utf8 ": role " ++ quote role ++
        utf8 " is not defined in policy.roles")
    else validateAssignable roleNames (i + 1) rest

def validateBootstrap (roleNames : List Bytes) : Nat → List BootstrapAssignment → Except Bytes Unit
  | _, [] => .ok ()
  | i, ba :: rest =>
    if ba.subject = [] then .error (indexed "bootstrap_assignments" i ++ utf8 ".subject is required")
    else if ba.role = [] then .error (indexed "bootstrap_assignments" i ++ utf8 ".role is required")
    else if !roleNames.contains ba.role then
      .error (indexed "bootstrap_assignments" i ++ utf8 ": role " ++ quote ba.role ++
        utf8 " is not defined in policy.roles")
    else if ba.scopeType = [] then .error (indexed "bootstrap_assignments" i ++ utf8 ".scope_type is required")
    else validateBootstrap roleNames (i + 1) rest

def Config.validateAssignments (c : Config) : Except Bytes Unit :=
  if c.policy.assignments ≠ [] then
    .error (utf8 ("policy.assignments is no longer supported; " ++
      "assignments are now runtime-managed via the admin API or --bootstrap-admin"))
  else .ok ()

def Config.validateStore (c : Config) : Except Bytes Unit :=
  if c.store.backend ≠ utf8 "memory" ∧ c.store.backend ≠ utf8 "postgres" then
    .error (utf8 "store.backend: must be \"memory\" or \"postgres\", got " ++ quote c.store.backend)
  else if c.store.backend = utf8 "postgres" ∧ c.store.dsn = [] then
    .error (utf8 "store.dsn is required when store.backend is \"postgres\"")
  else .ok ()

def Config.validateAuthn (c : Config) : Except Bytes Unit :=
  if c.authn.enabled = false then .ok ()
  else if c.authn.jwksURL = [] ∧ c.authn.publicKeyFile = [] then
    .error (utf8 "authn: one of jwks_url or public_key_file is required when enabled")
  else if c.authn.jwksURL ≠ [] ∧ c.authn.publicKeyFile ≠ [] then
    .error (utf8 "authn: specify only one of jwks_url or public_key_file")
  else .ok ()

def Config.validateOutbox (c : Config) : Except Bytes Unit :=
  if c.auditOutboxEnabled ∧ (c.store.backend ≠ utf8 "postgres" ∨ c.audit.isConfigured = false) then
    .error (utf8 "audit_outbox_enabled requires PostgreSQL and configured audit STS transport")
  else .ok ()

def Config.validate (c : Config) : Except Bytes Unit := do
  c.tls.validate quote
  let roleNames ← validateRoles quote 0 [] c.policy.roles
  c.validateAssignments
  validateAssignable quote roleNames 0 c.serviceAssignableRoles
  validateBootstrap quote roleNames 0 c.bootstrapAssignments
  c.validateStore quote
  c.validateAuthn
  c.validateOutbox
  c.audit.validate

end Validate

end Authzconfig

end Csar.Impl
