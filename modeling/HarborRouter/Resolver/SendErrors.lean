import HarborRouter.Resolver.Retry
import HarborRouter.Resolver.Url

/-!
# Which send errors are retried

`fetch_manifest` turns an error of the HTTP client into a text, and `is_retryable_error` looks for five words in it. The
client prints the URL of the request and not the cause, so the words it finds are words of the names.

* `isRetryableError_send` : what is found in the text of a send error;
* `sendError_retried_iff` : when the decision is that of the kind of the error.
-/

namespace HarborRouter
open Lib Text

/-- What `e.is_timeout()` and `e.is_connect()` tell. -/
inductive SendErrorKind
  | timeout
  | connect
  | other
  deriving DecidableEq

namespace SendErrorKind

/-- The reason label of `upstream_connection_errors_total`. -/
def reason : SendErrorKind → Text
  | timeout => "timeout".toList
  | connect => "connect".toList
  | other => "other".toList

def isTransient : SendErrorKind → Bool
  | timeout | connect => true
  | other => false

end SendErrorKind

/-- A `reqwest::Error` of a send. -/
structure SendError where
  kind : SendErrorKind
  url : Text

/-- Its `Display`. -/
def SendError.text (e : SendError) : Text :=
  "error sending request for url (".toList ++ e.url ++ ")".toList

/-- The error of a manifest request; `urlText` is how the HTTP client prints a URL. -/
def manifestSendError (urlText : Text → Text) (kind : SendErrorKind) (harborUrl project image reference : Text) :
    SendError :=
  ⟨kind, urlText (fetchManifestUrl harborUrl project image reference)⟩

/-! ## The words -/

def retryWords : List Text :=
  ["timeout".toList, "connection".toList, "reset".toList, "broken pipe".toList, "timed out".toList]

theorem isRetryableError_iff {msg : Text} : isRetryableError msg = true ↔ ∃ word ∈ retryWords, word <:+: msg := by
  have hany : isRetryableError msg = retryWords.any (contains · msg) := by
    simp only [isRetryableError, retryWords, List.any_cons, List.any_nil, Bool.or_false, Bool.or_assoc]
  rw [hany, List.any_eq_true]
  exact exists_congr fun word => and_congr_right fun _ => contains_iff

/-- The code's own text holds no word, nor the beginning of one where a name follows. -/
theorem retryWords_own : ∀ word ∈ retryWords, word ≠ [] ∧ ':' ∉ word ∧ '(' ∉ word ∧ ')' ∉ word ∧
    ¬ word <:+: " error sending request for url ".toList ∧ ¬ word <:+: "request to ".toList ∧
    ∀ x ∈ word.inits, x ≠ [] → ¬ x <:+ "request to ".toList := by
  decide

theorem message_split {sep own rest : Text} (h : sep ++ own = ':' :: (rest ++ ['('])) (start url : Text) :
    start ++ sep ++ (own ++ url ++ [')']) = start ++ ':' :: (rest ++ '(' :: (url ++ [')'])) := by
  rw [List.append_assoc start, List.append_assoc own, ← List.append_assoc sep, h, List.cons_append,
    List.append_assoc rest, List.singleton_append]

/-- What is found in the text of a send error is a word in the project or in the URL. -/
theorem isRetryableError_send (project : Text) (e : SendError) :
    isRetryableError ("request to ".toList ++ project ++ ": ".toList ++ e.text) = true ↔
      ∃ word ∈ retryWords, word <:+: project ∨ word <:+: e.url := by
  rw [isRetryableError_iff]
  refine exists_congr fun word => and_congr_right fun hword => ?_
  obtain ⟨hne, hcolon, hopen, hclose, hfixed, hto, hinits⟩ := retryWords_own word hword
  have hown : ": ".toList ++ "error sending request for url (".toList =
      ':' :: (" error sending request for url ".toList ++ ['(']) := by
    decide
  have hsplit := message_split hown ("request to ".toList ++ project) e.url
  have hnil : ¬ word <:+: [] := fun h => hne (List.infix_nil.mp h)
  show word <:+: "request to ".toList ++ project ++ ": ".toList ++
    ("error sending request for url (".toList ++ e.url ++ [')']) ↔ _
  rw [hsplit, infix_append_cons_iff hcolon, infix_append_of_unfinished hinits hto, infix_append_cons_iff hopen,
    infix_append_cons_iff hclose]
  simp only [hfixed, hnil, false_or, or_false]

/-! ## The decision -/

variable {b : Build} {outcome : Nat → FetchOutcome} {maxAttempts baseDelay left attempt : Nat}

/-- While attempts remain, an outcome is the result exactly when it is not retryable. -/
theorem retryLoop_stops_iff (hmore : attempt + 1 < maxAttempts) :
    retryLoop b maxAttempts baseDelay outcome (left + 1) attempt = .ok ⟨1, [], outcome attempt⟩ ↔
      retryable (outcome attempt) = false := by
  constructor
  · intro hstop
    by_contra hretry
    rw [Bool.not_eq_false] at hretry
    rw [retryLoop_retry hretry hmore] at hstop
    obtain ⟨delay, -, hstop⟩ := bind_ok_iff.mp hstop
    obtain ⟨run, -, hstop⟩ := bind_ok_iff.mp hstop
    cases congrArg Retried.retries (Except.ok.inj hstop)
  · intro hfinal
    refine retryLoop_stop fun h => ?_
    rw [hfinal] at h
    cases h.1

/-- The decision is that of the kind of a send error exactly when the words in the names agree with the kind. -/
theorem sendError_retried_iff (urlText : Text → Text) (kind : SendErrorKind) {harborUrl project image reference : Text}
    (hsafe : isSafeProjectName project = true) (hmore : attempt + 1 < maxAttempts)
    (hsend : outcome attempt =
      fetchManifest project (.sendError (manifestSendError urlText kind harborUrl project image reference).text)) :
    (retryLoop b maxAttempts baseDelay outcome (left + 1) attempt ≠ .ok ⟨1, [], outcome attempt⟩ ↔
        kind.isTransient = true) ↔
      (kind.isTransient = true ↔ ∃ word ∈ retryWords,
        word <:+: project ∨ word <:+: urlText (fetchManifestUrl harborUrl project image reference)) := by
  have hretry : retryable (outcome attempt) = true ↔ ∃ word ∈ retryWords,
      word <:+: project ∨ word <:+: urlText (fetchManifestUrl harborUrl project image reference) := by
    rw [hsend, fetchManifest, hsafe]
    exact isRetryableError_send project (manifestSendError urlText kind harborUrl project image reference)
  rw [ne_eq, retryLoop_stops_iff hmore, Bool.not_eq_false, hretry]
  exact iff_comm

def unsent (kind : SendErrorKind) (image : Text) : Nat → FetchOutcome := fun _ =>
  fetchManifest "dockerhub".toList
    (.sendError (manifestSendError id kind "http://harbor-core".toList "dockerhub".toList image "latest".toList).text)

theorem sendError_retried_named :
    retryLoop .release 2 150 (unsent .timeout "library/timeout".toList) 2 0 ≠
        .ok ⟨1, [], unsent .timeout "library/timeout".toList 0⟩ ↔
      SendErrorKind.timeout.isTransient = true :=
  (sendError_retried_iff id .timeout (by decide) (by decide) rfl).mpr (by decide +kernel)

/-- A timeout that is not retried, and an error that is retried for the name of its image. -/
theorem sendErrors_misjudged :
    (retryLoop .release 2 150 (unsent .timeout "library/nginx".toList) 2 0).map Retried.fetches = .ok 1 ∧
      (retryLoop .release 2 150 (unsent .other "team/connection-pool".toList) 2 0).map Retried.fetches = .ok 2 := by
  decide +kernel

end HarborRouter
