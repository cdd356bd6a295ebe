import HarborRouter.Lib.Binary64
import HarborRouter.Lib.Panic
import HarborRouter.Proxy.Headers

/-!
# The log line of a request

`logging_middleware` sees every request: it cuts the path to 512 bytes and replaces control characters, classifies the
request and its answer, counts them under labels and logs a line.

* `sanitize_safe_iff` : for which paths the cut is safe.
-/

namespace HarborRouter
open Lib Text

def maxLogField : Nat := 512

def sanitizeChar (c : Char) : Char :=
  if c = '\n' || c = '\r' || c = '\t' || isControl c then ' ' else c

def sanitizeLogField (s : Text) : Except Panic Text :=
  let truncated := if maxLogField < byteLen s then sliceTo s maxLogField else some s
  match truncated with
  | none => .error .charBoundary
  | some t => .ok (t.map sanitizeChar)

/-! ## Sanitizing -/

theorem sanitizeChar_eq (c : Char) : sanitizeChar c = if isControl c then ' ' else c := by
  unfold sanitizeChar
  by_cases hc : isControl c = true
  · rw [hc, Bool.or_true, if_pos rfl]
  · have hplain : c ≠ '\n' ∧ c ≠ '\r' ∧ c ≠ '\t' := by
      refine ⟨?_, ?_, ?_⟩ <;> rintro rfl <;> exact hc (by decide)
    rw [if_neg hc, if_neg (by simp [hplain, hc])]

theorem isControl_sanitizeChar (c : Char) : isControl (sanitizeChar c) = false := by
  rw [sanitizeChar_eq]
  split
  · decide
  · rename_i hc
    exact Bool.eq_false_iff.mpr hc

theorem byteLen_sanitize (t : Text) : byteLen (t.map sanitizeChar) ≤ byteLen t := by
  induction t with
  | nil => exact Nat.le_refl 0
  | cons c t ih =>
      have hchar : (sanitizeChar c).utf8Size ≤ c.utf8Size := by
        unfold sanitizeChar
        split
        · exact c.utf8Size_pos
        · exact Nat.le_refl _
      exact Nat.add_le_add hchar ih

/-- What a sanitized field promises: it is short, without control characters, and otherwise a prefix of the text. -/
structure Sanitized (s r : Text) : Prop where
  short : byteLen r ≤ maxLogField
  clean : ∀ c ∈ r, isControl c = false
  pre : ∃ t, t <+: s ∧ r = t.map fun c => if isControl c then ' ' else c

theorem sanitized_of_prefix {s t : Text} (h : t <+: s) (hlen : byteLen t ≤ maxLogField) :
    Sanitized s (t.map sanitizeChar) where
  short := (byteLen_sanitize t).trans hlen
  clean c hc := by
    obtain ⟨d, -, rfl⟩ := List.mem_map.mp hc
    exact isControl_sanitizeChar d
  pre := ⟨t, h, List.map_congr_left fun c _ => sanitizeChar_eq c⟩

/-- Sanitizing is safe exactly for a short text, and for one with a character boundary where it is cut. -/
theorem sanitize_safe_iff (s : Text) : (∃ r, sanitizeLogField s = .ok r ∧ Sanitized s r) ↔
    byteLen s ≤ maxLogField ∨ ∃ t, t <+: s ∧ byteLen t = maxLogField := by
  rw [sanitizeLogField]
  by_cases hlong : maxLogField < byteLen s
  · rw [if_pos hlong, or_iff_right (Nat.not_le.mpr hlong)]
    constructor
    · rintro ⟨r, hr, -⟩
      cases hslice : sliceTo s maxLogField with
      | none =>
          rw [hslice] at hr
          cases hr
      | some t => exact ⟨t, sliceTo_eq_some.mp hslice⟩
    · rintro ⟨t, hpre, hlen⟩
      rw [sliceTo_eq_some.mpr ⟨hpre, hlen⟩]
      exact ⟨_, rfl, sanitized_of_prefix hpre (Nat.le_of_eq hlen)⟩
  · have hshort := Nat.le_of_not_lt hlong
    rw [if_neg hlong]
    exact iff_of_true ⟨_, rfl, sanitized_of_prefix List.prefix_rfl hshort⟩ (.inl hshort)

/-- "/aaa…é", one byte too long: the `é` stands across the cut. -/
def longPath : Text := '/' :: List.replicate 510 'a' ++ ['é']

theorem longPath_panics : sanitizeLogField longPath = .error .charBoundary := by decide +kernel

/-! ## The middleware -/

def reqType (path : Text) : Text :=
  if contains "/tags/list".toList path then "tags".toList
  else if contains "/manifests/".toList path then "manifest".toList
  else if contains "/blobs/".toList path then "blob".toList
  else if path = "/v2/".toList ∨ path = "/v2".toList then "v2check".toList
  else if path = "/healthz".toList ∨ path = "/readyz".toList then "health".toList
  else "other".toList

def statusClass (status : Nat) : Text :=
  if 200 ≤ status ∧ status ≤ 299 then "2xx".toList
  else if 300 ≤ status ∧ status ≤ 399 then "3xx".toList
  else if 400 ≤ status ∧ status ≤ 499 then "4xx".toList
  else "5xx".toList

inductive Level
  | warn
  | debug
  | info
  deriving DecidableEq

def logLevel (status : Nat) (reqType : Text) : Level :=
  if 400 ≤ status then .warn
  else if reqType ∈ ["blob".toList, "v2check".toList, "health".toList] then .debug
  else .info

/-- A label tuple of one of the counters that follow the requests. -/
inductive Series
  | requestsTotal (method reqType statusClass : Text)
  | requestDuration (method reqType statusClass : Text)
  | responseBytesTotal (reqType : Text)
  | imageRequestsTotal (kind : Text)
  deriving DecidableEq

/-- What the middleware leaves behind: the series it touches, and its line. -/
structure Logged where
  series : List Series
  level : Level
  path : Text

def bytesCounted (headers : List (Text × Text)) : Bool :=
  match headers.lookup "content-length".toList with
  | some value => (Binary64.parseF64 ((headerToStr value).getD "0".toList)).isSome
  | none => false

def loggingMiddleware (method uriPath : Text) (response : Response) : Except Panic Logged := do
  let path ← sanitizeLogField uriPath
  let reqType := reqType path
  let statusClass := statusClass response.status
  return {
    series := [.requestsTotal method reqType statusClass, .requestDuration method reqType statusClass] ++
      if bytesCounted response.headers then [.responseBytesTotal reqType] else []
    level := logLevel response.status reqType
    path := path }

end HarborRouter
