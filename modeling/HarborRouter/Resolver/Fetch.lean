import HarborRouter.Proxy.Path

/-!
# Fetching one manifest

`fetch_manifest` and `fetch_manifest_with_retry`, over the replies of the HTTP client: the replies are inputs of the
model, the texts of the errors are the code's.

* `fetchManifest_ok` : what comes back as a result came from the project that was asked;
* `retry_ok` : retrying changes neither.
-/

namespace HarborRouter
open Lib Text

structure ResolveResult where
  project : Text
  status : Nat
  headers : List (Text × Text)
  body : List UInt8
  deriving DecidableEq

/-- `HeaderValue::to_str`: only visible ASCII is text. -/
def headerToStr (value : Text) : Option Text :=
  if value.all fun c => c == '\t' || (0x20 ≤ c.toNat && c.toNat < 0x7F) then some value else none

def ResolveResult.contentType (r : ResolveResult) : Text :=
  ((r.headers.lookup "content-type".toList).bind headerToStr).getD []

inductive Reply
  | response (status : Nat) (headers : List (Text × Text)) (body : List UInt8)
  | sendError (e : Text)
  | bodyError (status : Nat) (e : Text)
  deriving DecidableEq

def unsafeProject (project : Text) : Text :=
  "refusing unsafe project name in URL construction: ".toList ++ project

def fetchManifest (project : Text) (reply : Reply) : Except Text ResolveResult :=
  if !isSafeProjectName project then .error (unsafeProject project)
  else match reply with
    | .response status headers body => .ok ⟨project, status, headers, body⟩
    | .sendError e => .error ("request to ".toList ++ project ++ ": ".toList ++ e)
    | .bodyError _ e => .error ("read body from ".toList ++ project ++ ": ".toList ++ e)

theorem fetchManifest_ok {project : Text} {reply : Reply} {r : ResolveResult}
    (h : fetchManifest project reply = .ok r) : r.project = project ∧ isSafeProjectName project = true := by
  unfold fetchManifest at h
  split at h
  · cases h
  · rename_i hsafe
    split at h <;> cases h
    exact ⟨rfl, by simpa using hsafe⟩

theorem reply_of_fetch_ok {project : Text} {reply : Reply} {r : ResolveResult}
    (h : fetchManifest project reply = .ok r) : reply = .response r.status r.headers r.body := by
  unfold fetchManifest at h
  split at h
  · cases h
  · split at h <;> cases h
    rfl

/-! ## Retries -/

def isRetryableStatus (status : Nat) : Bool := 502 ≤ status && status ≤ 504

def isRetryableError (msg : Text) : Bool :=
  contains "timeout".toList msg || contains "connection".toList msg || contains "reset".toList msg ||
    contains "broken pipe".toList msg || contains "timed out".toList msg

def retryable : Except Text ResolveResult → Bool
  | .ok r => isRetryableStatus r.status
  | .error e => isRetryableError e

/-- The attempts from number `attempt` on, `left` of them after this one. -/
def retryFrom (project : Text) (reply : Nat → Reply) : Nat → Nat → Except Text ResolveResult
  | 0, attempt => fetchManifest project (reply attempt)
  | left + 1, attempt =>
      let result := fetchManifest project (reply attempt)
      if retryable result then retryFrom project reply left (attempt + 1) else result

def fetchManifestWithRetry (retryMaxAttempts : Nat) (project : Text) (reply : Nat → Reply) :
    Except Text ResolveResult :=
  retryFrom project reply (max retryMaxAttempts 1 - 1) 0

/-- The result of the retries is the result of one attempt. -/
theorem retry_eq (retryMaxAttempts : Nat) (project : Text) (reply : Nat → Reply) :
    ∃ attempt, fetchManifestWithRetry retryMaxAttempts project reply = fetchManifest project (reply attempt) := by
  suffices h : ∀ left attempt, ∃ k, retryFrom project reply left attempt = fetchManifest project (reply k) from h _ _
  intro left
  induction left with
  | zero => exact fun attempt => ⟨attempt, rfl⟩
  | succ left ih =>
      intro attempt
      by_cases hr : retryable (fetchManifest project (reply attempt)) = true
      · obtain ⟨k, hk⟩ := ih (attempt + 1)
        exact ⟨k, by rw [retryFrom, if_pos hr, hk]⟩
      · exact ⟨attempt, by rw [retryFrom, if_neg hr]⟩

theorem retry_ok {retryMaxAttempts : Nat} {project : Text} {reply : Nat → Reply} {r : ResolveResult}
    (h : fetchManifestWithRetry retryMaxAttempts project reply = .ok r) :
    r.project = project ∧ isSafeProjectName project = true := by
  obtain ⟨k, hk⟩ := retry_eq retryMaxAttempts project reply
  exact fetchManifest_ok (hk ▸ h)

/-- A result of the retries is what the project replied to one of the attempts. -/
theorem reply_of_retry_ok {retryMaxAttempts : Nat} {project : Text} {reply : Nat → Reply} {r : ResolveResult}
    (h : fetchManifestWithRetry retryMaxAttempts project reply = .ok r) :
    ∃ attempt, reply attempt = .response r.status r.headers r.body := by
  obtain ⟨attempt, hattempt⟩ := retry_eq retryMaxAttempts project reply
  exact ⟨attempt, reply_of_fetch_ok (hattempt ▸ h)⟩

end HarborRouter
