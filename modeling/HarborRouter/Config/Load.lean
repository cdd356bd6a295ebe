import HarborRouter.Config.Grammar
import HarborRouter.Lib.Maps

/-!
# Loading the configuration

`Config::load` reads every setting from the environment. What is missing or does not parse has a default; only the URL,
the credentials, a secret's file and the Redis database can keep the router from starting.

* `Load.Config` : the settings, with what `load` makes sure of in their types;
* `starts_iff` : when a release build starts;
* `Writable` : the configurations whose texts can stand in variables;
* `load_environment` : every one of them can be written down, and is then loaded as it is, by every build.
-/

namespace HarborRouter.Load
open Lib Text

abbrev U32 := Fin UInt32.size

/-- A `usize`, or the milliseconds of a duration. -/
abbrev U64 := Fin UInt64.size

/-- A text that must be set. -/
abbrev Required := { t : Text // t ≠ [] }

@[ext]
structure Config where
  harborUrl : Required
  harborUsername : Required
  harborPassword : Required
  discoveryInterval : U64
  resolverTimeout : U64
  cacheTtl : U64
  negativeCacheTtl : U64
  staleWhileRevalidate : U64
  circuitBreakerThreshold : U32
  circuitBreakerTimeout : U64
  retryMaxAttempts : U32
  retryBaseDelay : U64
  maxIdleConnsPerHost : U64
  maxConnsPerHost : U64
  idleConnTimeout : U64
  blobReadTimeout : U64
  cacheWarmupTopN : U64
  listenBacklog : U32
  listenAddr : Text
  metricsAddr : Text
  proxyProject : Text
  maxFanoutProjects : U64
  http2PriorKnowledge : Bool
  rateLimitPerIp : U32
  redisSentinels : Text
  redisMasterName : Text
  redisPassword : Option Required
  redisDb : Fin 16
  redisKeyPrefix : Text
  redisTls : Bool
  logLevel : Text
  logFormat : Text
  enablePprof : Bool

inductive Failure
  | error (message : Text)
  | panic (p : Panic)

/-- `std::fs::read_to_string`, with the text of its error. -/
abbrev Files := Text → Except Text Text

/-! ## Reading variables -/

section Readers
variable (b : Build) (env : Env) (files : Files) (key : Text)

def envStr (default : Text) : Text := (env key).getD default

/-- A secret, from the file that `{key}_FILE` names, or else from `key`. -/
def envStrOrFile : Except Failure Text :=
  match env (key ++ "_FILE".toList) with
  | none | some [] => .ok ((env key).getD [])
  | some path =>
      match files path with
      | .ok contents => .ok (trim contents)
      | .error e => .error (.error ("failed to read ".toList ++ key ++ " from ".toList ++ path ++ ": ".toList ++ e))

def envUsize (default : Nat) : Nat :=
  match env key with
  | none | some [] => default
  | some v => (parseU64 v).getD default

def envBool (default : Bool) : Bool :=
  match env key with
  | none => default
  | some v =>
      if v = "true".toList ∨ v = "1".toList ∨ v = "yes".toList then true
      else if v = "false".toList ∨ v = "0".toList ∨ v = "no".toList then false
      else default

theorem envUsize_lt {default : Nat} (h : default < UInt64.size) : envUsize env key default < UInt64.size := by
  unfold envUsize
  split
  · exact h
  · exact h
  · rename_i v _ _
    cases hparse : parseU64 v with
    | none => exact h
    | some n => exact parseU64_lt hparse

/-- The readers, with the bounds of their types. -/
def u32 (default : U32) : U32 := ⟨envU32 env key default, envU32_lt env key default.2⟩

def usize (default : U64) : U64 := ⟨envUsize env key default, envUsize_lt env key default.2⟩

def duration (default : U64) : Except Failure U64 :=
  match h : envDuration b env key default with
  | .error p => .error (.panic p)
  | .ok d => .ok ⟨d, envDuration_lt default.2 h⟩

end Readers

def nonempty (v : Text) : Option Required := if h : v = [] then none else some ⟨v, h⟩

def load (b : Build) (env : Env) (files : Files) : Except Failure Config := do
  let harborUrl := envStr env "HARBOR_URL".toList "http://harbor-core:80".toList
  let harborUsername ← envStrOrFile env files "HARBOR_USERNAME".toList
  let harborPassword ← envStrOrFile env files "HARBOR_PASSWORD".toList
  if hurl : harborUrl = [] then throw (.error "HARBOR_URL must be set".toList)
  else if hcred : harborUsername = [] ∨ harborPassword = [] then
    throw (.error ("HARBOR_USERNAME and HARBOR_PASSWORD must be set ".toList ++
      "(via env var or *_FILE pointing to Vault-injected secret)".toList))
  else do
    let discoveryInterval ← duration b env "DISCOVERY_INTERVAL".toList 60000
    let resolverTimeout ← duration b env "RESOLVER_TIMEOUT".toList 10000
    let cacheTtl ← duration b env "CACHE_TTL".toList 300000
    let negativeCacheTtl ← duration b env "NEGATIVE_CACHE_TTL".toList 30000
    let staleWhileRevalidate ← duration b env "STALE_WHILE_REVALIDATE".toList 60000
    let circuitBreakerTimeout ← duration b env "CIRCUIT_BREAKER_TIMEOUT".toList 30000
    let retryBaseDelay ← duration b env "RETRY_BASE_DELAY".toList 150
    let idleConnTimeout ← duration b env "IDLE_CONN_TIMEOUT".toList 90000
    let blobReadTimeout ← duration b env "BLOB_READ_TIMEOUT".toList 60000
    let redisPassword ← envStrOrFile env files "REDIS_PASSWORD".toList
    let redisDb := envU32 env "REDIS_DB".toList 0
    if hdb : 15 < redisDb then throw (.error ("REDIS_DB must be 0-15, got ".toList ++ decimal redisDb))
    else return {
      harborUrl := ⟨harborUrl, hurl⟩
      harborUsername := ⟨harborUsername, fun h => hcred (.inl h)⟩
      harborPassword := ⟨harborPassword, fun h => hcred (.inr h)⟩
      discoveryInterval, resolverTimeout, cacheTtl, negativeCacheTtl, staleWhileRevalidate
      circuitBreakerThreshold := u32 env "CIRCUIT_BREAKER_THRESHOLD".toList 5
      circuitBreakerTimeout
      retryMaxAttempts := u32 env "RETRY_MAX_ATTEMPTS".toList 2
      retryBaseDelay
      maxIdleConnsPerHost := usize env "MAX_IDLE_CONNS_PER_HOST".toList 512
      maxConnsPerHost := usize env "MAX_CONNS_PER_HOST".toList 0
      idleConnTimeout, blobReadTimeout
      cacheWarmupTopN := usize env "CACHE_WARMUP_TOP_N".toList 100
      listenBacklog := u32 env "LISTEN_BACKLOG".toList 8192
      listenAddr := envStr env "LISTEN_ADDR".toList ":8080".toList
      metricsAddr := envStr env "METRICS_ADDR".toList ":9090".toList
      proxyProject := envStr env "PROXY_PROJECT".toList "proxy".toList
      maxFanoutProjects := usize env "MAX_FANOUT_PROJECTS".toList 50
      http2PriorKnowledge := envBool env "HTTP2_PRIOR_KNOWLEDGE".toList false
      rateLimitPerIp := u32 env "RATE_LIMIT_PER_IP".toList 0
      redisSentinels := envStr env "REDIS_SENTINELS".toList []
      redisMasterName := envStr env "REDIS_MASTER_NAME".toList "mymaster".toList
      redisPassword := nonempty redisPassword
      redisDb := ⟨redisDb, by omega⟩
      redisKeyPrefix := envStr env "REDIS_KEY_PREFIX".toList "hr".toList
      redisTls := envBool env "REDIS_TLS".toList false
      logLevel := envStr env "LOG_LEVEL".toList "info".toList
      logFormat := envStr env "LOG_FORMAT".toList "pretty".toList
      enablePprof := envBool env "ENABLE_PPROF".toList false }

/-! ## When the router starts -/

/-- What a release build needs. -/
structure Starts (env : Env) (files : Files) : Prop where
  url : envStr env "HARBOR_URL".toList "http://harbor-core:80".toList ≠ []
  username : ∃ v, v ≠ [] ∧ envStrOrFile env files "HARBOR_USERNAME".toList = .ok v
  password : ∃ v, v ≠ [] ∧ envStrOrFile env files "HARBOR_PASSWORD".toList = .ok v
  redisPassword : ∃ v, envStrOrFile env files "REDIS_PASSWORD".toList = .ok v
  redisDb : envU32 env "REDIS_DB".toList 0 ≤ 15

theorem duration_release (env : Env) (key : Text) (default : U64) : ∃ d, duration .release env key default = .ok d := by
  have hread : ∃ d, envDuration .release env key default = .ok d := by
    unfold envDuration
    split
    · exact ⟨default, rfl⟩
    · exact ⟨default, rfl⟩
    · obtain ⟨r, hr⟩ := parseGoDuration_release ‹_›
      exact ⟨r.getD default, by rw [hr]; rfl⟩
  obtain ⟨d, hd⟩ := hread
  unfold duration
  split
  · rename_i herror
    rw [hd] at herror
    cases herror
  · exact ⟨_, rfl⟩

/-- Nothing but these settings keeps a release build from starting: it takes the default for a number, a flag or a
duration that it cannot read. -/
theorem starts_iff (env : Env) (files : Files) : (∃ c, load .release env files = .ok c) ↔ Starts env files := by
  constructor
  · rintro ⟨c, h⟩
    obtain ⟨username, husername, h⟩ := bind_ok_iff.mp h
    obtain ⟨password, hpassword, h⟩ := bind_ok_iff.mp h
    split at h
    · cases h
    · rename_i hurl
      split at h
      · cases h
      · rename_i hcred
        obtain ⟨_, -, h⟩ := bind_ok_iff.mp h
        obtain ⟨_, -, h⟩ := bind_ok_iff.mp h
        obtain ⟨_, -, h⟩ := bind_ok_iff.mp h
        obtain ⟨_, -, h⟩ := bind_ok_iff.mp h
        obtain ⟨_, -, h⟩ := bind_ok_iff.mp h
        obtain ⟨_, -, h⟩ := bind_ok_iff.mp h
        obtain ⟨_, -, h⟩ := bind_ok_iff.mp h
        obtain ⟨_, -, h⟩ := bind_ok_iff.mp h
        obtain ⟨_, -, h⟩ := bind_ok_iff.mp h
        obtain ⟨redisPassword, hredis, h⟩ := bind_ok_iff.mp h
        dsimp only at h
        split at h
        · cases h
        · rename_i hdb
          exact ⟨hurl, ⟨username, fun he => hcred (.inl he), husername⟩,
            ⟨password, fun he => hcred (.inr he), hpassword⟩, ⟨redisPassword, hredis⟩, Nat.le_of_not_lt hdb⟩
  · rintro ⟨hurl, ⟨username, huser, husername⟩, ⟨password, hpass, hpassword⟩, ⟨redisPassword, hredis⟩, hdb⟩
    refine exists_bind_ok husername (exists_bind_ok hpassword ?_)
    rw [dif_neg hurl, dif_neg (not_or.mpr ⟨huser, hpass⟩)]
    obtain ⟨_, h⟩ := duration_release env "DISCOVERY_INTERVAL".toList 60000
    refine exists_bind_ok h ?_
    obtain ⟨_, h⟩ := duration_release env "RESOLVER_TIMEOUT".toList 10000
    refine exists_bind_ok h ?_
    obtain ⟨_, h⟩ := duration_release env "CACHE_TTL".toList 300000
    refine exists_bind_ok h ?_
    obtain ⟨_, h⟩ := duration_release env "NEGATIVE_CACHE_TTL".toList 30000
    refine exists_bind_ok h ?_
    obtain ⟨_, h⟩ := duration_release env "STALE_WHILE_REVALIDATE".toList 60000
    refine exists_bind_ok h ?_
    obtain ⟨_, h⟩ := duration_release env "CIRCUIT_BREAKER_TIMEOUT".toList 30000
    refine exists_bind_ok h ?_
    obtain ⟨_, h⟩ := duration_release env "RETRY_BASE_DELAY".toList 150
    refine exists_bind_ok h ?_
    obtain ⟨_, h⟩ := duration_release env "IDLE_CONN_TIMEOUT".toList 90000
    refine exists_bind_ok h ?_
    obtain ⟨_, h⟩ := duration_release env "BLOB_READ_TIMEOUT".toList 60000
    refine exists_bind_ok h ?_
    refine exists_bind_ok hredis ?_
    rw [dif_neg (Nat.not_lt.mpr hdb)]
    exact ⟨_, rfl⟩

/-! ## Writing durations -/

/-- A component is exact below `2 ^ 53`, so a long duration is written as several. -/
def chunk : Nat := 2 ^ 52

def millisComponent (n : Nat) : WholeComponent where
  digits := decimal n
  digits_ne := Nat.toDigits_ne_nil
  digits_isDigit := List.all_eq_true.mpr fun _ hc => decimal_isDigit hc
  unit := .ms

def components (n : Nat) : List WholeComponent :=
  List.replicate (n / chunk) (millisComponent chunk) ++ [millisComponent (n % chunk)]

def durationText (n : Nat) : Text := (components n).flatMap WholeComponent.text

theorem amount_millisComponent (n : Nat) : (millisComponent n).amount = n := by
  show Nat.ofDigitChars 10 (decimal n) 0 * 1 = n
  rw [Nat.mul_one, decimal, Nat.ofDigitChars_ten_toDigits]

theorem amount_lt {n : Nat} {c : WholeComponent} (hc : c ∈ components n) : c.amount < 2 ^ 53 := by
  have hmod : n % chunk < chunk := Nat.mod_lt n (by decide)
  have hchunk : chunk < 2 ^ 53 := by decide
  rcases List.mem_append.mp hc with hc | hc
  · rw [(List.mem_replicate.mp hc).2, amount_millisComponent]
    exact hchunk
  · rw [List.mem_singleton.mp hc, amount_millisComponent]
    omega

theorem sum_amounts (n : Nat) : ((components n).map WholeComponent.amount).sum = n := by
  rw [components, List.map_append, List.sum_append, List.map_replicate, List.sum_replicate, amount_millisComponent,
    List.map_singleton, List.sum_singleton, amount_millisComponent, smul_eq_mul, Nat.mul_comm]
  exact Nat.div_add_mod n chunk

theorem parseGoDuration_durationText (b : Build) {n : Nat} (h : n < UInt64.size) :
    durationText n ≠ [] ∧ parseGoDuration b (durationText n) = .ok (some n) := by
  have hne : ((components n).map WholeComponent.toComponent) ≠ [] := by simp [components]
  have hsum : (((components n).map WholeComponent.toComponent).map Component.millis).sum = n := by
    rw [List.map_map]
    refine Eq.trans (congrArg List.sum (List.map_congr_left fun c hc => ?_)) (sum_amounts n)
    exact WholeComponent.millis_toComponent (amount_lt hc)
  have htotal : componentsTotal (durationText n) = n := by
    rw [durationText, ← WholeComponent.render_toComponent, componentsTotal_render, hsum]
  have hread : (readComponents (durationText n)).2 = [] := by
    rw [durationText, ← WholeComponent.render_toComponent, readComponents_render]
  have hsome : durationText n ≠ [] := by
    rw [durationText, ← WholeComponent.render_toComponent]
    exact Component.render_ne hne
  have hlt : componentsTotal (durationText n) < UInt64.size := htotal.trans_lt h
  refine ⟨hsome, ?_⟩
  rw [parseGoDuration_of_lt b hsome hlt, if_pos hread, htotal]

/-! ## Writing a configuration -/

def boolText (v : Bool) : Text := if v then "true".toList else "false".toList

/-- No password is written as an empty one. -/
def passwordText (p : Option Required) : Text := (p.map Subtype.val).getD []

/-- The variables, and how a configuration is written in each. -/
def settings : List (Text × (Config → Text)) :=
  [("HARBOR_URL".toList, fun c => c.harborUrl), ("HARBOR_USERNAME".toList, fun c => c.harborUsername),
    ("HARBOR_PASSWORD".toList, fun c => c.harborPassword),
    ("DISCOVERY_INTERVAL".toList, fun c => durationText c.discoveryInterval),
    ("RESOLVER_TIMEOUT".toList, fun c => durationText c.resolverTimeout),
    ("CACHE_TTL".toList, fun c => durationText c.cacheTtl),
    ("NEGATIVE_CACHE_TTL".toList, fun c => durationText c.negativeCacheTtl),
    ("STALE_WHILE_REVALIDATE".toList, fun c => durationText c.staleWhileRevalidate),
    ("CIRCUIT_BREAKER_THRESHOLD".toList, fun c => decimal c.circuitBreakerThreshold),
    ("CIRCUIT_BREAKER_TIMEOUT".toList, fun c => durationText c.circuitBreakerTimeout),
    ("RETRY_MAX_ATTEMPTS".toList, fun c => decimal c.retryMaxAttempts),
    ("RETRY_BASE_DELAY".toList, fun c => durationText c.retryBaseDelay),
    ("MAX_IDLE_CONNS_PER_HOST".toList, fun c => decimal c.maxIdleConnsPerHost),
    ("MAX_CONNS_PER_HOST".toList, fun c => decimal c.maxConnsPerHost),
    ("IDLE_CONN_TIMEOUT".toList, fun c => durationText c.idleConnTimeout),
    ("BLOB_READ_TIMEOUT".toList, fun c => durationText c.blobReadTimeout),
    ("CACHE_WARMUP_TOP_N".toList, fun c => decimal c.cacheWarmupTopN),
    ("LISTEN_BACKLOG".toList, fun c => decimal c.listenBacklog), ("LISTEN_ADDR".toList, fun c => c.listenAddr),
    ("METRICS_ADDR".toList, fun c => c.metricsAddr), ("PROXY_PROJECT".toList, fun c => c.proxyProject),
    ("MAX_FANOUT_PROJECTS".toList, fun c => decimal c.maxFanoutProjects),
    ("HTTP2_PRIOR_KNOWLEDGE".toList, fun c => boolText c.http2PriorKnowledge),
    ("RATE_LIMIT_PER_IP".toList, fun c => decimal c.rateLimitPerIp),
    ("REDIS_SENTINELS".toList, fun c => c.redisSentinels), ("REDIS_MASTER_NAME".toList, fun c => c.redisMasterName),
    ("REDIS_PASSWORD".toList, fun c => passwordText c.redisPassword), ("REDIS_DB".toList, fun c => decimal c.redisDb),
    ("REDIS_KEY_PREFIX".toList, fun c => c.redisKeyPrefix), ("REDIS_TLS".toList, fun c => boolText c.redisTls),
    ("LOG_LEVEL".toList, fun c => c.logLevel), ("LOG_FORMAT".toList, fun c => c.logFormat),
    ("ENABLE_PPROF".toList, fun c => boolText c.enablePprof)]

/-- An environment with these variables, and no files for secrets. -/
def environment (c : Config) : Env := fun key => (settings.lookup key).map fun write => write c

def Holdable (v : Text) : Prop := '\x00' ∉ v

structure Writable (c : Config) : Prop where
  harborUrl : Holdable c.harborUrl
  harborUsername : Holdable c.harborUsername
  harborPassword : Holdable c.harborPassword
  listenAddr : Holdable c.listenAddr
  metricsAddr : Holdable c.metricsAddr
  proxyProject : Holdable c.proxyProject
  redisSentinels : Holdable c.redisSentinels
  redisMasterName : Holdable c.redisMasterName
  redisPassword : Holdable (passwordText c.redisPassword)
  redisKeyPrefix : Holdable c.redisKeyPrefix
  logLevel : Holdable c.logLevel
  logFormat : Holdable c.logFormat

theorem holdable_decimal (n : Nat) : Holdable (decimal n) :=
  fun h => absurd (decimal_isDigit h) (by decide)

theorem holdable_durationText (n : Nat) : Holdable (durationText n) := by
  intro h
  obtain ⟨c, hc, hmem⟩ := List.mem_flatMap.mp h
  have hms : ∀ k, '\x00' ∉ (millisComponent k).text := fun k hk =>
    (List.mem_append.mp hk).elim (holdable_decimal k) (show '\x00' ∉ "ms".toList by decide)
  rcases List.mem_append.mp hc with hc | hc
  · exact hms _ ((List.mem_replicate.mp hc).2 ▸ hmem)
  · exact hms _ (List.mem_singleton.mp hc ▸ hmem)

theorem holdable_boolText : ∀ v : Bool, '\x00' ∉ boolText v := by decide

theorem holdable_environment {c : Config} (h : Writable c) {key v : Text} (hv : environment c key = some v) :
    Holdable v := by
  obtain ⟨write, hwrite, rfl⟩ := Option.map_eq_some_iff.mp hv
  have hall : ∀ s ∈ settings, Holdable (s.2 c) := by
    simp only [settings, List.forall_mem_cons, List.not_mem_nil, false_implies, implies_true, and_true]
    exact ⟨h.harborUrl, h.harborUsername, h.harborPassword, holdable_durationText _, holdable_durationText _,
      holdable_durationText _, holdable_durationText _, holdable_durationText _, holdable_decimal _,
      holdable_durationText _, holdable_decimal _, holdable_durationText _, holdable_decimal _, holdable_decimal _,
      holdable_durationText _, holdable_durationText _, holdable_decimal _, holdable_decimal _, h.listenAddr,
      h.metricsAddr, h.proxyProject, holdable_decimal _, holdable_boolText _, holdable_decimal _, h.redisSentinels,
      h.redisMasterName, h.redisPassword, holdable_decimal _, h.redisKeyPrefix, holdable_boolText _, h.logLevel,
      h.logFormat, holdable_boolText _⟩
  obtain ⟨before, after, happ, -⟩ := List.lookup_eq_some_iff.mp hwrite
  exact hall (key, write) (happ ▸ List.mem_append_right before List.mem_cons_self)

/-! ## Reading it back -/

section RoundTrip
variable {c : Config} {key : Text} {write : Config → Text} {b : Build} {files : Files} {default : Nat}

theorem settings_nodup : (settings.map Prod.fst).Nodup := by decide +kernel

theorem environment_at (i : Nat) (h : settings[i]? = some (key, write)) : environment c key = some (write c) := by
  rw [environment, lookup_of_mem settings_nodup (List.mem_of_getElem? h)]
  rfl

theorem envStr_at (i : Nat) {d : Text} (h : settings[i]? = some (key, write)) :
    envStr (environment c) key d = write c := by
  rw [envStr, environment_at i h]
  rfl

theorem envStrOrFile_at (i : Nat) (h : settings[i]? = some (key, write))
    (hfile : settings.lookup (key ++ "_FILE".toList) = none) :
    envStrOrFile (environment c) files key = .ok (write c) := by
  have hnone : environment c (key ++ "_FILE".toList) = none := by rw [environment, hfile, Option.map_none]
  rw [envStrOrFile, hnone, environment_at i h]
  rfl

theorem decimal_ne (n : Nat) : decimal n ≠ [] := Nat.toDigits_ne_nil

theorem envU32_at (i : Nat) {n : Config → Nat} (hn : n c < UInt32.size)
    (h : settings[i]? = some (key, fun c => decimal (n c))) : envU32 (environment c) key default = n c := by
  have hparse : parseU32 (decimal (n c)) = some (n c) := by
    rw [parseU32, parseU64_decimal (hn.trans (by decide))]
    exact Option.filter_eq_some_iff.mpr ⟨rfl, decide_eq_true hn⟩
  have henv : environment c key = some (decimal (n c)) := environment_at i h
  rw [envU32, henv]
  split
  · rename_i hnone
    cases hnone
  · rename_i hnil
    exact absurd (Option.some.inj hnil) (decimal_ne _)
  · rename_i hsome
    cases hsome
    rw [hparse, Option.getD_some]

theorem u32_at (i : Nat) {d : U32} {n : Config → U32}
    (h : settings[i]? = some (key, fun c => decimal (n c))) : u32 (environment c) key d = n c :=
  Fin.ext (envU32_at (n := fun c => n c) i (n c).2 h)

theorem usize_at (i : Nat) {d : U64} {n : Config → U64}
    (h : settings[i]? = some (key, fun c => decimal (n c))) : usize (environment c) key d = n c := by
  refine Fin.ext ?_
  have henv : environment c key = some (decimal (n c)) := environment_at i h
  show envUsize (environment c) key d = n c
  rw [envUsize, henv]
  split
  · rename_i hnone
    cases hnone
  · rename_i hnil
    exact absurd (Option.some.inj hnil) (decimal_ne _)
  · rename_i hsome
    cases hsome
    rw [parseU64_decimal (n c).2, Option.getD_some]

theorem envBool_at (i : Nat) {d : Bool} {v : Config → Bool}
    (h : settings[i]? = some (key, fun c => boolText (v c))) : envBool (environment c) key d = v c := by
  have henv : environment c key = some (boolText (v c)) := environment_at i h
  rw [envBool, henv]
  cases v c with
  | true => rfl
  | false => exact (if_neg (by decide +kernel)).trans (if_pos (.inl rfl))

theorem duration_at (i : Nat) {d : U64} {n : Config → U64}
    (h : settings[i]? = some (key, fun c => durationText (n c))) :
    duration b (environment c) key d = .ok (n c) := by
  have henv : environment c key = some (durationText (n c)) := environment_at i h
  obtain ⟨hne, hparse⟩ := parseGoDuration_durationText b (n c).2
  have hread : envDuration b (environment c) key d = .ok (n c) := by
    rw [envDuration, henv]
    split
    · rename_i hnone
      cases hnone
    · rename_i hnil
      exact absurd (Option.some.inj hnil) hne
    · rename_i hsome
      cases hsome
      rw [hparse]
      rfl
  unfold duration
  split
  · rename_i herror
    rw [hread] at herror
    cases herror
  · rename_i hok
    rw [hread] at hok
    cases hok
    rfl

theorem nonempty_passwordText (p : Option Required) : nonempty (passwordText p) = p := by
  cases p with
  | none => rfl
  | some v => exact dif_neg v.2

/-- What is written for a configuration is loaded as it is, by every build, whatever files there are; and variables can
hold it if they can hold the texts of the configuration. -/
theorem load_environment (b : Build) (files : Files) (c : Config) : load b (environment c) files = .ok c ∧
    (Writable c → ∀ key v, environment c key = some v → '\x00' ∉ v) := by
  refine ⟨?_, fun h _ _ hv => holdable_environment h hv⟩
  have hurl : envStr (environment c) "HARBOR_URL".toList "http://harbor-core:80".toList = c.harborUrl := envStr_at 0 rfl
  have hcred : ¬ (c.harborUsername.1 = [] ∨ c.harborPassword.1 = []) :=
    not_or.mpr ⟨c.harborUsername.2, c.harborPassword.2⟩
  have hdb : envU32 (environment c) "REDIS_DB".toList 0 = c.redisDb :=
    envU32_at (n := fun c => c.redisDb) 27 (c.redisDb.2.trans (by decide)) rfl
  refine bind_ok_iff.mpr ⟨c.harborUsername, envStrOrFile_at 1 rfl (by decide +kernel), ?_⟩
  refine bind_ok_iff.mpr ⟨c.harborPassword, envStrOrFile_at 2 rfl (by decide +kernel), ?_⟩
  rw [dif_neg (by rw [hurl]; exact c.harborUrl.2), dif_neg hcred]
  refine bind_ok_iff.mpr ⟨c.discoveryInterval, duration_at 3 rfl, ?_⟩
  refine bind_ok_iff.mpr ⟨c.resolverTimeout, duration_at 4 rfl, ?_⟩
  refine bind_ok_iff.mpr ⟨c.cacheTtl, duration_at 5 rfl, ?_⟩
  refine bind_ok_iff.mpr ⟨c.negativeCacheTtl, duration_at 6 rfl, ?_⟩
  refine bind_ok_iff.mpr ⟨c.staleWhileRevalidate, duration_at 7 rfl, ?_⟩
  refine bind_ok_iff.mpr ⟨c.circuitBreakerTimeout, duration_at 9 rfl, ?_⟩
  refine bind_ok_iff.mpr ⟨c.retryBaseDelay, duration_at 11 rfl, ?_⟩
  refine bind_ok_iff.mpr ⟨c.idleConnTimeout, duration_at 14 rfl, ?_⟩
  refine bind_ok_iff.mpr ⟨c.blobReadTimeout, duration_at 15 rfl, ?_⟩
  refine bind_ok_iff.mpr ⟨passwordText c.redisPassword, envStrOrFile_at 26 rfl (by decide +kernel), ?_⟩
  rw [dif_neg (by rw [hdb]; omega)]
  refine congrArg Except.ok ?_
  apply Config.ext <;> dsimp only
  exacts [Subtype.ext hurl, u32_at 8 rfl, u32_at 10 rfl, usize_at 12 rfl, usize_at 13 rfl, usize_at 16 rfl,
    u32_at 17 rfl, envStr_at 18 rfl, envStr_at 19 rfl, envStr_at 20 rfl, usize_at 21 rfl, envBool_at 22 rfl,
    u32_at 23 rfl, envStr_at 24 rfl, envStr_at 25 rfl, nonempty_passwordText _, Fin.ext hdb, envStr_at 28 rfl,
    envBool_at 29 rfl, envStr_at 30 rfl, envStr_at 31 rfl, envBool_at 32 rfl]

end RoundTrip

end HarborRouter.Load
