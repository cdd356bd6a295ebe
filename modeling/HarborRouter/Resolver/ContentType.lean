import HarborRouter.Lib.Text

/-!
# Content negotiation

`content_type_matches`: whether a response's media type is one the client's `Accept` values allow.
-/

namespace HarborRouter
open Lib Text

/-- The media type of a header value: up to its parameters, without blanks around it. -/
def mediaType (value : Text) : Text := trim (value.takeWhile (· ≠ ';'))

def acceptMatches (ct av : Text) : Bool :=
  av ≠ [] &&
    (av == "*/*".toList ||
      (match stripSuffix "/*".toList av with
        | some pre => ct.takeWhile (· ≠ '/') == pre
        | none => false) ||
      eqIgnoreAsciiCase ct av)

def contentTypeMatches (responseCt : Text) (acceptValues : List Text) : Bool :=
  acceptValues.any fun header =>
    (header.splitOn ',').any fun accept => acceptMatches (mediaType responseCt) (mediaType accept)

example : contentTypeMatches "application/json; charset=utf-8".toList ["text/html, application/*;q=0.5".toList] := by
  decide

end HarborRouter
